/-
  Reading files at whole blocks.

  Requests begin at blocks of 16 bytes of their files, and so do the ranges that are
  encrypted (`Aligned`), so that no chunk cuts a block.

  * `delivered_of_aligned`: a run that succeeds gets the contents of the file;
  * `readAt_cases`: a run that does not succeed gets nothing;
  * `readAt_extended`: what a BDT has after a file does not matter for the file;
  * `Mounted.readsBlocks`: every file of a mount is read as its archive has it.
-/
import Fsvfs.Dvdbnd.Contents
import Fsvfs.Dvdbnd.Named
import Fsvfs.Dvdbnd.Windows

namespace Fsvfs.Dvdbnd

open Lib Bhd5 Traced

/-- The ranges lie in a file, and each begins at a block of it. -/
structure Aligned (encryption : Encryption) (size : ℕ) : Prop extends InFile encryption size where
  start : ∀ r ∈ encryption.ranges, BLOCK_SIZE ∣ r.startOffset.toNat

/-- The start of a block is cut by no range. -/
theorem Aligned.not_cuts {encryption : Encryption} {size c : ℕ} (h : Aligned encryption size)
    (hacc : ∀ r ∈ encryption.ranges, r.Accepted size) (hsize : size < 2 ^ 32) (hc : BLOCK_SIZE ∣ c) :
    ∀ r ∈ recordRanges encryption, ¬ r.Cuts c := by
  intro r hr hcut
  obtain ⟨s, hs, hne, rfl⟩ := mem_recordRanges.1 hr
  have hextent := (h.fitsFile hacc s hs hne).extent_stored hsize
  obtain ⟨⟨hle, -⟩, hinto⟩ := hcut
  have hstart : s.stored.extent.start = s.startOffset.toNat := by rw [hextent]; rfl
  refine hinto (Nat.mod_eq_zero_of_dvd (Nat.dvd_sub hc ?_))
  rw [hstart]
  exact h.start s hs

/-! ## Calls of the callback -/

section
variable {F : ℕ → UInt8} {pos stop : ℕ} {l : List (List UInt8 × ℕ)}

/-- Slices that tile a request have the bytes of their places, if they have those of
    the request together. -/
theorem Tiles.eq_window (h : Tiles stop pos l) (hbytes : (l.map Prod.fst).flatten = window F pos (stop - pos)) :
    ∀ call ∈ l, call.1 = window F call.2 call.1.length ∧ pos ≤ call.2 ∧ call.2 + call.1.length ≤ stop := by
  induction h with
  | nil => exact fun call hcall => nomatch hcall
  | @cons slice calls pos hne hrest ih =>
    have hle := hrest.le
    have hsplit : stop - pos = slice.length + (stop - (pos + slice.length)) := by omega
    rw [List.map_cons, List.flatten_cons, hsplit, window_add] at hbytes
    obtain ⟨hslice, hbytes⟩ := List.append_inj hbytes (by rw [length_window])
    intro call hcall
    rcases List.mem_cons.1 hcall with rfl | hcall
    · exact ⟨hslice, Nat.le_refl _, hle⟩
    · obtain ⟨heq, hge, hend⟩ := ih hbytes call hcall
      exact ⟨heq, Nat.le_trans (Nat.le_add_right _ _) hge, hend⟩

/-- Every position of a request lies in a slice. -/
theorem Tiles.covers (h : Tiles stop pos l) {p : ℕ} (hp : pos ≤ p) (hlt : p < stop) :
    ∃ call ∈ l, call.2 ≤ p ∧ p < call.2 + call.1.length := by
  induction h with
  | nil => omega
  | @cons slice calls pos _ _ ih =>
    by_cases hin : p < pos + slice.length
    · exact ⟨_, List.mem_cons_self, hp, hin⟩
    · obtain ⟨call, hcall, hcovers⟩ := ih (Nat.not_lt.1 hin)
      exact ⟨call, List.mem_cons_of_mem _ hcall, hcovers⟩

end

namespace DvdbndMount
variable {mount : DvdbndMount} {file : DvdbndFile} {E : Type} [FileEntry E] {entry : E}
  {encryption : Option Encryption} {bdt : ℕ → UInt8} {o l : ℕ}

/-- **A run that begins at a block gets the contents of the file.** -/
theorem delivered_of_aligned (hstop : o + l < 2 ^ 32) (hentry : FromEntry mount.fs file entry encryption)
    (haligned : ∀ e ∈ encryption, Aligned e (FileEntry.fileSize entry).toNat)
    (hexact : ∀ reader, mount.bdts file.srcId = .ok reader → Exact reader bdt)
    (ho : BLOCK_SIZE ∣ o ∨ l = 0) (hok : (mount.readAt file o l).result = .ok ()) :
    delivered (mount.readAt file o l).events =
      window (contents mount.aes encryption fun i => bdt (file.dataOffset.toNat + i)) o l := by
  have hlen : o + l - o = l := Nat.add_sub_cancel_left o l
  obtain ⟨hin, hrun⟩ := readAt_of_ok hstop hexact hok
  rcases encryption with _ | e
  · have hplain := hentry.plain rfl
    rcases hrun with ⟨-, hrun⟩ | ⟨id, _, _, _, hsome, -⟩
    · rw [hrun]
      exact delivered_chunkBuffers.trans (by rw [hlen, contents])
    · rw [hplain] at hsome
      cases hsome
  · have hstored := hentry.stored e rfl
    have hsize := (FileEntry.fileSize entry).toNat_lt
    have he := haligned e rfl
    have hranges := he.rangesIn hstored.accepted hsize
    have hwindows : file.HasWindows mount.platform o l := by
      rcases hrun with ⟨hnone, -⟩ | ⟨_, _, _, _, -, -, hwindows, -⟩
      · obtain ⟨id, _, _, _, hid, -⟩ := hstored
        rw [hnone] at hid
        cases hid
      · exact hwindows
    rcases hreader : mount.bdts file.srcId with s | reader
    · obtain ⟨_, hrun⟩ := readAt_of_error (o := o) (l := l) hreader
      rw [hrun] at hok
      cases hok
    · obtain ⟨prev, next, hneighbours, hrun⟩ :=
        readAt_stored hstop hstored hreader (hexact reader hreader) hin hwindows
      rw [hrun] at hok ⊢
      split_ifs at hok ⊢
      · cases hok
      · have hends := hneighbours.endsStored
        -- every chunk begins at a block
        have hcut : ∀ k, o + k * BUFFER_LEN < o + l → ∀ r ∈ recordRanges e, ¬ r.Cuts (o + k * BUFFER_LEN) := by
          intro k hk
          rcases ho with ho | rfl
          · exact he.not_cuts hstored.accepted hsize (Nat.dvd_add ho (Dvd.dvd.mul_left (by decide) k))
          · omega
        rw [contents_some he.toInFile hstored.accepted hsize]
        refine (delivered_rounds hstop hstored.ranges.2 hranges.apart hranges.lt (fun hlt r hr hcuts => ?_)
          (fun k hk => hcut (k + 1) hk) (fun _ r _ => r.headFits_of_stored hends.head) fun hlt r hr => ?_).trans
            (by rw [hlen])
        · exact absurd hcuts (by simpa using hcut 0 (by omega) r hr)
        · refine Range.tailFits_of_stored (hends.tail (by omega)) ?_
          rw [hentry.len_eq]
          exact hranges.le r hr

/-- **A run succeeds, or it stops before anything happens.** -/
theorem readAt_cases (hstop : o + l < 2 ^ 32) (hentry : FromEntry mount.fs file entry encryption)
    (hexact : ∀ reader, mount.bdts file.srcId = .ok reader → Exact reader bdt) :
    (∃ s, mount.readAt file o l = lift (.error s)) ∨ (mount.readAt file o l).result = .ok () := by
  rcases hreader : mount.bdts file.srcId with s | reader
  · exact .inl (readAt_of_error hreader)
  · have hread := hexact reader hreader
    rcases encryption with _ | e
    · have hplain := hentry.plain rfl
      by_cases hin : file.InBounds o l
      · rw [readAt_plain hstop hplain hreader hread hin]
        exact .inr rfl
      · refine .inl ⟨_, readAt_panic hstop hreader (fun id hid => ?_) fun h => absurd h hin⟩
        rw [hplain] at hid
        cases hid
    · have hstored := hentry.stored e rfl
      by_cases hboth : file.InBounds o l ∧ file.HasWindows mount.platform o l
      · obtain ⟨prev, next, -, hrun⟩ := readAt_stored hstop hstored hreader hread hboth.1 hboth.2
        rw [hrun]
        split_ifs
        · exact .inl ⟨_, rfl⟩
        · exact .inr rfl
      · obtain ⟨id, out, out', rest, hid, hget, -⟩ := hstored
        exact .inl ⟨_, readAt_panic hstop hreader (fun _ _ => ⟨_, hget⟩) fun hin =>
          ⟨by rw [hid]; rfl, fun hwindows => hboth ⟨hin, hwindows⟩⟩⟩

/-- The calls of a run that succeeds tile the request. -/
theorem tiles_readAt (hstop : o + l < 2 ^ 32)
    (hexact : ∀ reader, mount.bdts file.srcId = .ok reader → Exact reader bdt)
    (hok : (mount.readAt file o l).result = .ok ()) :
    Tiles (o + l) o (callbacks (mount.readAt file o l).events) := by
  have hmin : min o (o + l) = o := Nat.min_eq_left (Nat.le_add_right _ _)
  obtain ⟨-, ⟨-, hrun⟩ | ⟨id, store, pre, post, -, -, -, hpieces, hrun⟩⟩ := readAt_of_ok hstop hexact hok
  · have htiles : Tiles (o + l) (min o (o + l)) (callbacks ((chunkBuffers
        (fun i => bdt (file.dataOffset.toNat + i)) o (o + l)).map fun b =>
          .callback b.bytes b.offset.toNat)) := tiles_chunkBuffers
    rw [hmin] at htiles
    rw [hrun]
    exact htiles
  · rw [hrun] at hok ⊢
    have htiles := tiles_sweepAll (fun _ _ => length_of_decrypt) (fun b hb => by
      have := hpieces.post_ge b hb
      push_cast at this ⊢
      omega) (Nat.le_refl o) hok
    rwa [hmin] at htiles

end DvdbndMount

/-! ## What comes after a file -/

/-- Every read up to an end gives the bytes that are asked for. -/
def ExactUpTo (reader : ReadManagedAt) (bdt : ℕ → UInt8) (stop : ℕ) : Prop :=
  ∀ len pos, 0 < len → pos + len ≤ stop → reader len pos = .ok (some (window bdt pos len))

/-- A reader that goes on after an end. -/
def extendReader (reader : ReadManagedAt) (bdt : ℕ → UInt8) (stop : ℕ) : ReadManagedAt := fun len pos =>
  if pos + len ≤ stop then reader len pos else .ok (some (window bdt pos len))

theorem ExactUpTo.extendReader {reader : ReadManagedAt} {bdt : ℕ → UInt8} {stop : ℕ}
    (h : ExactUpTo reader bdt stop) : Exact (extendReader reader bdt stop) bdt := by
  intro len pos hlen
  rw [Dvdbnd.extendReader]
  split_ifs with hstop
  · exact h len pos hlen hstop
  · rfl

theorem agree_extendReader {reader : ReadManagedAt} {bdt : ℕ → UInt8} {stop : ℕ} :
    Agree reader (extendReader reader bdt stop) stop := fun _ _ _ hstop => if_pos hstop

namespace DvdbndMount

/-- A mount whose BDTs go on after an end. -/
def extended (mount : DvdbndMount) (bdt : ℕ → UInt8) (stop : ℕ) : DvdbndMount where
  platform := mount.platform
  fs := mount.fs
  bdts srcId := (mount.bdts srcId).map fun reader => extendReader reader bdt stop
  aes := mount.aes

/-- **What a BDT has after a file does not matter** for the file. -/
theorem readAt_extended (mount : DvdbndMount) (file : DvdbndFile) (bdt : ℕ → UInt8) (o l : ℕ) :
    (mount.extended bdt (file.dataOffset.toNat + file.len.toNat)).readAt file o l = mount.readAt file o l := by
  rw [readAt, readAt]
  refine bind_congr fun dataStart => bind_congr fun stop => ?_
  rcases hreader : mount.bdts file.srcId with s | reader
  · rw [extended]
    dsimp only
    rw [hreader]
    rfl
  · have hagree := @agree_extendReader reader bdt (file.dataOffset.toNat + file.len.toNat)
    have hextended : (mount.extended bdt (file.dataOffset.toNat + file.len.toNat)).bdts file.srcId =
        .ok (extendReader reader bdt (file.dataOffset.toNat + file.len.toNat)) := by
      rw [extended]
      dsimp only
      rw [hreader]
      rfl
    rw [hextended, lift_ok_bind, lift_ok_bind]
    rcases file.encryptionId with _ | id
    · dsimp only
      rw [streamRead_congr hagree]
    · dsimp only
      rw [readAndDecryptFile, readAndDecryptFile]
      refine bind_congr fun start => bind_congr fun stop => bind_congr fun store => ?_
      rw [streamReadWindows_congr hagree]
      rfl

end DvdbndMount

/-! ## Mounts -/

/-- What a BDT has of an entry. -/
def storedContents (aes : Vector UInt8 16 → BlockCipher) (bdt : ℕ → UInt8)
    (d : Decoded × Option (Ref Encryption)) : ℕ → UInt8 :=
  contents aes (d.2.map Ref.val) fun i => bdt (d.1.fileOffset.toNat + i)

/-- A mount of the archives that the source ids stand for, some of them cached by earlier
    mounts, with their BDTs.  Reads of a BDT up to the end of a file neither fail nor end
    early.  The ranges that are encrypted lie in their files and apart, and begin at blocks
    of them. -/
structure Mounted (bhdOf : SrcId → File) (bdtOf : SrcId → ℕ → UInt8) (E : Eytzinger) (puts : List Put)
    (builder : DvdbndRofsBuilder) (values : List (SrcId × DvdbndRofsCached)) (mount : DvdbndMount) : Prop where
  filled : Filled bhdOf puts
  uses : Uses bhdOf (puts.map Put.entry) builder
  finish : builder.Finish E values mount.fs
  exact : ∀ put, Merged puts builder values put → ∀ reader, mount.bdts put.entry.1 = .ok reader →
    ∀ d ∈ (bhdOf put.entry.1).buckets.decoded,
      ExactUpTo reader (bdtOf put.entry.1) (d.fileOffset.toNat + d.fileSize.toNat)
  aligned : ∀ put, Merged puts builder values put →
    ∀ d ∈ (bhdOf put.entry.1).buckets.decoded.zip (bhdOf put.entry.1).encryption,
      ∀ encryption ∈ d.2, Aligned encryption.val d.1.fileSize.toNat

section
variable {bhdOf : SrcId → File} {bdtOf : SrcId → ℕ → UInt8} {E : Eytzinger} {puts : List Put}
  {builder : DvdbndRofsBuilder} {values : List (SrcId × DvdbndRofsCached)} {mount : DvdbndMount}
  {file : DvdbndFile} {ino : UInt64}

/-- A finished filesystem was made of an object. -/
theorem exists_intoRofs_of_finish {fs : DvdbndRofs} (h : builder.Finish E values fs) :
    ∃ obj : DvdbndObject, obj.IntoRofs E fs.inner := by
  obtain ⟨-, -, -, -, -, hinto⟩ := h
  exact ⟨_, hinto⟩

/-- The runs for a file at whole blocks: its calls have the bytes of their places, and
    those of a run that succeeds cover the request. -/
structure ReadsBlocks (mount : DvdbndMount) (ino : UInt64) (file : DvdbndFile) (F : ℕ → UInt8) : Prop where
  calls : ∀ fileOffset len, BLOCK_SIZE ∣ file.readOffset fileOffset ∨ file.readLen fileOffset len = 0 →
    ∀ call ∈ callbacks (mount.readFile ino fileOffset len).events, call.1 = window F call.2 call.1.length ∧
      file.readOffset fileOffset ≤ call.2 ∧
        call.2 + call.1.length ≤ file.readOffset fileOffset + file.readLen fileOffset len
  covers : ∀ fileOffset len, (mount.readFile ino fileOffset len).result = .ok () → ∀ p,
    file.readOffset fileOffset ≤ p → p < file.readOffset fileOffset + file.readLen fileOffset len →
      ∃ call ∈ callbacks (mount.readFile ino fileOffset len).events, call.2 ≤ p ∧ p < call.2 + call.1.length
  delivered : ∀ fileOffset len, BLOCK_SIZE ∣ file.readOffset fileOffset ∨ file.readLen fileOffset len = 0 →
    (mount.readFile ino fileOffset len).result = .ok () → delivered (mount.readFile ino fileOffset len).events =
      window F (file.readOffset fileOffset) (file.readLen fileOffset len)

/-- The runs for a file that is read up to its end: what comes after it is as good as
    there. -/
theorem readsBlocks_of_exactUpTo {T : Type} [FileEntry T] {entry : T} {encryption : Option Encryption} {bdt : ℕ → UInt8}
    (hfile : mount.IsFile ino file) (hentry : FromEntry mount.fs file entry encryption)
    (haligned : ∀ e ∈ encryption, Aligned e (FileEntry.fileSize entry).toNat)
    (hreader : ∀ reader, mount.bdts file.srcId = .ok reader →
      ExactUpTo reader bdt (file.dataOffset.toNat + file.len.toNat)) :
    ReadsBlocks mount ino file (contents mount.aes encryption fun i => bdt (file.dataOffset.toNat + i)) := by
  set mount' := mount.extended bdt (file.dataOffset.toNat + file.len.toNat)
  have hentry' : FromEntry mount'.fs file entry encryption := hentry
  have hread : ∀ fileOffset len, mount.readFile ino fileOffset len =
      mount'.readAt file (file.readOffset fileOffset) (file.readLen fileOffset len) := by
    intro fileOffset len
    rw [DvdbndMount.readFile_eq hfile]
    exact (mount.readAt_extended file _ _ _).symm
  have hexact : ∀ reader, mount'.bdts file.srcId = .ok reader → Exact reader bdt := by
    intro reader' hreader'
    rcases hbdt : mount.bdts file.srcId with s | reader
    · rw [show mount'.bdts file.srcId = (mount.bdts file.srcId).map _ from rfl, hbdt] at hreader'
      cases hreader'
    · rw [show mount'.bdts file.srcId = (mount.bdts file.srcId).map _ from rfl, hbdt] at hreader'
      cases hreader'
      exact (hreader reader hbdt).extendReader
  refine ⟨fun fileOffset len hblock => ?_, fun fileOffset len hok p hp hlt => ?_, fun fileOffset len hblock hok => ?_⟩
  · have hstop := file.readEnd_lt fileOffset len
    rw [hread]
    rcases DvdbndMount.readAt_cases hstop hentry' hexact with ⟨s, hrun⟩ | hok
    · rw [hrun]
      exact fun call hcall => nomatch hcall
    · refine (DvdbndMount.tiles_readAt hstop hexact hok).eq_window ?_
      rw [Nat.add_sub_cancel_left]
      exact DvdbndMount.delivered_of_aligned hstop hentry' haligned hexact hblock hok
  · have hstop := file.readEnd_lt fileOffset len
    rw [hread] at hok ⊢
    exact (DvdbndMount.tiles_readAt hstop hexact hok).covers hp hlt
  · rw [hread] at hok ⊢
    exact DvdbndMount.delivered_of_aligned (file.readEnd_lt fileOffset len) hentry' haligned hexact hblock hok

/-- **Every file of a mount is read at whole blocks**, as its archive has it under the
    path that leads to the file. -/
theorem Mounted.readsBlocks (h : Mounted bhdOf bdtOf E puts builder values mount) {path : Str}
    (hlookup : mount.fs.inner.lookup E path = .ok ino) (hfile : mount.IsFile ino file) :
    ∃ d ∈ (bhdOf file.srcId).buckets.decoded.zip (bhdOf file.srcId).encryption,
      Names bhdOf puts builder values (norm DvdbndConfig path) file.srcId d.1 ∧
      (∃ store, mount.fs.encryptionStore.get file.srcId = some store ∧ LinkedTo d.1 d.2 file store) ∧
        ReadsBlocks mount ino file (storedContents mount.aes (bdtOf file.srcId) d) := by
  obtain ⟨e, he, hdata⟩ := id hfile
  obtain ⟨_, heq, store, hget, T, _, entry, encryption, hmem, hnames, hstored⟩ :=
    namedBy_of_lookup h.filled h.uses h.finish hlookup he hdata
  obtain rfl := Option.some_inj.1 heq
  have hentry : FromEntry mount.fs file entry (encryption.map Ref.val) := by
    refine ⟨hstored.file_eq, fun hnone => hstored.plain (Option.map_eq_none_iff.1 hnone), fun e he => ?_⟩
    obtain ⟨r, hr, rfl⟩ := Option.map_eq_some_iff.1 he
    obtain ⟨id, out, out', rest, hid, rfl, hrecord⟩ := hstored.record r hr
    exact ⟨id, out, out', rest, hid, hget, hrecord⟩
  obtain ⟨put, -, hmerged, hsrc, -, -⟩ := id hnames
  have haligned : ∀ e ∈ encryption.map Ref.val, Aligned e (FileEntry.fileSize entry).toNat := by
    intro e he
    obtain ⟨r, hr, rfl⟩ := Option.map_eq_some_iff.1 he
    exact h.aligned put hmerged _ (hsrc ▸ hmem) r hr
  have hreader : ∀ reader, mount.bdts file.srcId = .ok reader →
      ExactUpTo reader (bdtOf file.srcId) (file.dataOffset.toNat + file.len.toNat) := by
    intro reader hbdt
    have hexact := h.exact put hmerged reader (hsrc ▸ hbdt) _ (hsrc ▸ (List.of_mem_zip hmem).1)
    rw [hsrc] at hexact
    rw [hstored.linkedTo.dataOffset, hentry.len_eq]
    exact hexact
  have hcontents : storedContents mount.aes (bdtOf file.srcId) (Decoded.of entry, encryption) =
      contents mount.aes (encryption.map Ref.val) fun i => bdtOf file.srcId (file.dataOffset.toNat + i) := by
    rw [hstored.linkedTo.dataOffset]
    rfl
  refine ⟨_, hmem, hnames, ⟨store, hget, hstored.linkedTo⟩, ?_⟩
  rw [hcontents]
  exact readsBlocks_of_exactUpTo hfile hentry haligned hreader

end

end Fsvfs.Dvdbnd
