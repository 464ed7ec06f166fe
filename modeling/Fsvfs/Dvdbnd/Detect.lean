/-
  Whether a key opens an archive (the filter of `KeyProvider::into_keys_for_game` in
  `src/dvdbnd/keys.rs`).

  A file is a source that does not end early.  An error of the source is not
  `Interrupted`, after which `read_exact` would go on.

  * `opensWith_eq`: the filter asks whether the first bytes, after decryption, are
    a header;
  * `not_left_out_of_parse`: an archive that could be mounted is not left out.
-/
import Fsvfs.Bhd5.Routing
import Fsvfs.Crypto.RsaPrefix
import Fsvfs.Dvdbnd.Keys
import Fsvfs.Dvdbnd.Mount

namespace Fsvfs.Dvdbnd

open Lib Lib.Checked Bhd5 Crypto SortedVec

/-- `BHD5_HEADER_LEN`. -/
def BHD5_HEADER_LEN : ℕ := (Header.codec .LE).size

/-- `Read::read_exact`, into a buffer of some length.  The first `Option` is that of
    the fuel, the second one of an error. -/
def readExact {S : Type} (read : S → ℕ → Option (Except IoError (List UInt8 × ℕ × S))) :
    ℕ → S → ℕ → Option (Option (List UInt8))
  | 0, _, _ => none
  | fuel + 1, reader, len =>
    if len = 0 then some (some [])
    else match read reader len with
      | none => none
      | some (.error _) => some none
      | some (.ok (bytes, n, reader)) =>
        -- `UnexpectedEof`
        if n = 0 then some none
        else (readExact read fuel reader (len - n)).map fun rest => rest.map (bytes ++ ·)

/-- `Header::try_ref_from_bytes`, in little-endian or in big-endian. -/
def isHeader (bytes : List UInt8) : Bool :=
  ((Header.codec .LE).read bytes).isSome || ((Header.codec .BE).read bytes).isSome

section
variable {R : Type} [IoRead IoError R]

/-- `io::Read` of a file. -/
def readFrom (reader : R) (len : ℕ) : Option (Except IoError (List UInt8 × ℕ × R)) :=
  some ((IoRead.read reader len).map fun (bytes, reader) => (bytes, bytes.length, reader))

/-- The first bytes of an archive, which are decrypted if there is a key. -/
def headerBytes (fuel : ℕ) (reader : R) : Option RsaKey → Option (Option (List UInt8))
  | some key => readExact (RsaDecryptor.read fuel) fuel (RsaDecryptor.new key reader) BHD5_HEADER_LEN
  | none => readExact readFrom fuel reader BHD5_HEADER_LEN

/-- The filter, for the file of an archive. -/
def opensWith (fuel : ℕ) (reader : R) (key : Option RsaKey) : Option Bool :=
  (headerBytes fuel reader key).map fun bytes => (bytes.map isHeader).getD false

/-- The filter of `into_keys_for_game`.  Without enough fuel it stops. -/
def opensArchive (fuel : ℕ) (openFile : BhdPath → Checked R) (bhdPath : BhdPath) (key : Option RsaKey) :
    Checked Bool := do
  let reader ← openFile bhdPath
  expect (opensWith fuel reader key)

end

/-! ## The filter -/

/-- Some bytes are a header, after decryption if there is a key. -/
def StartsWithHeader : Option RsaKey → List UInt8 → Prop
  | some key, bytes => ∃ w, RsaDecryptor.Starts key [] bytes BHD5_HEADER_LEN w ∧ isHeader w
  | none, bytes => BHD5_HEADER_LEN ≤ bytes.length ∧ isHeader (bytes.take BHD5_HEADER_LEN)

theorem BHD5_HEADER_LEN_pos : 0 < BHD5_HEADER_LEN := by decide

section
variable {R : Type} [IoRead IoError R] {rest : R → List UInt8} {fuel : ℕ} {r : R}

theorem readFrom_eq (hfills : FillsReads rest) (r : R) (len : ℕ) : ∃ r', rest r' = (rest r).drop len ∧
    readFrom r len = some (.ok ((rest r).take len, ((rest r).take len).length, r')) := by
  obtain ⟨r', hread, hrest⟩ := hfills.read r len
  refine ⟨r', hrest, ?_⟩
  rw [readFrom, hread]
  rfl

/-- Reading the first bytes of a file. -/
theorem readExact_readFrom (hfills : FillsReads rest) (hfuel : 2 ≤ fuel) {len : ℕ} (hlen : 0 < len) :
    readExact readFrom fuel r len = some (if len ≤ (rest r).length then some ((rest r).take len) else none) := by
  obtain ⟨fuel, rfl⟩ := Nat.exists_eq_add_of_le' hfuel
  obtain ⟨r', hrest, hread⟩ := readFrom_eq hfills r len
  rw [readExact, if_neg hlen.ne', hread]
  dsimp only
  by_cases hle : len ≤ (rest r).length
  · have htake : ((rest r).take len).length = len := List.length_take_of_le hle
    rw [if_pos hle, htake, if_neg hlen.ne', Nat.sub_self, readExact, if_pos rfl, Option.map_some, Option.map_some,
      List.append_nil]
  · have htake : ((rest r).take len).length = (rest r).length := by
      rw [List.length_take]
      omega
    rw [if_neg hle, htake]
    split_ifs with hempty
    · rfl
    · -- the end of the file
      have hleft : len - (rest r).length ≠ 0 := by omega
      obtain ⟨r'', -, hread'⟩ := readFrom_eq hfills r' (len - (rest r).length)
      have hnil : rest r' = [] := by
        rw [hrest]
        exact List.drop_of_length_le (Nat.le_of_not_le hle)
      rw [readExact, if_neg hleft, hread', hnil]
      simp

/-- Reading the first bytes that a decryptor delivers. -/
theorem readExact_decryptor (hfills : FillsReads rest) {key : RsaKey} {len : ℕ} (hlen : 0 < len)
    (hfuel : 2 * len + 1 + (rest r).length < fuel) : ∃ res,
      readExact (RsaDecryptor.read fuel) fuel (RsaDecryptor.new key r) len = some res ∧
        ∀ w, res = some w ↔ RsaDecryptor.Starts key [] (rest r) len w := by
  obtain ⟨fuel, rfl⟩ := Nat.exists_eq_add_of_le' (show 2 ≤ fuel by omega)
  have hempty : (RsaDecryptor.new key r).out.fillBuf = [] := List.drop_of_length_le (Nat.le_of_eq List.length_replicate)
  have hrun := @RsaDecryptor.readLoop_starts _ _ rest len hfills (fuel + 2) 0 (RsaDecryptor.new key r) [] rfl rfl
    List.length_replicate (by rw [if_pos hempty]; exact hfuel)
  rw [hempty] at hrun
  rw [readExact, if_neg hlen.ne', RsaDecryptor.read]
  rcases hrun with ⟨w, dec', hw, heq⟩ | ⟨⟨e, heq⟩, hnone⟩
  · refine ⟨some w, ?_, fun w' => ?_⟩
    · rw [heq]
      dsimp only
      rw [if_neg (by omega), Nat.zero_add, Nat.sub_self, readExact, if_pos rfl]
      simp
    · rw [Option.some.injEq]
      constructor
      · rintro rfl
        exact hw
      · exact fun hw' => hw.unique hw'
  · refine ⟨none, ?_, fun w => ?_⟩
    · rw [heq]
    · exact ⟨(fun h => by cases h), fun hw => absurd hw (hnone w)⟩

/-- **The filter asks whether an archive starts with a header.** -/
theorem opensWith_eq (hfills : FillsReads rest) (hfuel : 2 * BHD5_HEADER_LEN + 1 + (rest r).length < fuel)
    (key : Option RsaKey) :
    ∃ opens, opensWith fuel r key = some opens ∧ (opens = true ↔ StartsWithHeader key (rest r)) := by
  have hpos := BHD5_HEADER_LEN_pos
  rcases key with _ | key
  · rw [opensWith, headerBytes, readExact_readFrom hfills (by omega) hpos]
    refine ⟨_, rfl, ?_⟩
    by_cases hle : BHD5_HEADER_LEN ≤ (rest r).length
    · simp [StartsWithHeader, hle]
    · simp [StartsWithHeader, hle]
  · obtain ⟨res, hread, hres⟩ := readExact_decryptor hfills hpos hfuel
    rw [opensWith, headerBytes, hread]
    refine ⟨_, rfl, ?_⟩
    simp only [StartsWithHeader, ← hres]
    rcases res with _ | w
    · simp
    · simp

end

/-! ## Archives that can be mounted -/

theorem isHeader_of_tryRefHeader {o : ByteOrder} {bytes : List UInt8} {header : Header}
    (h : tryRefHeader o bytes = .ok header) :
    BHD5_HEADER_LEN ≤ bytes.length ∧ isHeader (bytes.take BHD5_HEADER_LEN) := by
  have hsize : (Header.codec o).size = BHD5_HEADER_LEN := by cases o <;> rfl
  rw [tryRefHeader, hsize] at h
  split_ifs at h with hle
  refine ⟨hle, ?_⟩
  rcases hread : (Header.codec o).read (bytes.take BHD5_HEADER_LEN) with _ | header'
  · rw [hread] at h
    cases h
  · cases o <;> simp [isHeader, hread]

/-- What is parsed starts with a header. -/
theorem isHeader_of_tryRef {bytes : List UInt8} {bhd : File} (h : tryRefBhd5File bytes = some bhd) :
    BHD5_HEADER_LEN ≤ bytes.length ∧ isHeader (bytes.take BHD5_HEADER_LEN) := by
  have hheader : ∀ {o : ByteOrder} {bhd : File}, tryRefFromBytes o bytes = .ok bhd →
      ∃ header, tryRefHeader o bytes = .ok header := by
    intro o bhd hbhd
    rw [tryRefFromBytes] at hbhd
    rcases hheader : tryRefHeader o bytes with e | header
    · rw [hheader] at hbhd
      cases hbhd
    · exact ⟨header, rfl⟩
  rw [tryRefBhd5File] at h
  rcases hle : tryRefFromBytes .LE bytes with e | le
  · rw [hle] at h
    rcases hbe : tryRefFromBytes .BE bytes with e | be
    · rw [hbe] at h
      cases h
    · obtain ⟨header, hheader⟩ := hheader hbe
      exact isHeader_of_tryRefHeader hheader
  · obtain ⟨header, hheader⟩ := hheader hle
    exact isHeader_of_tryRefHeader hheader

/-- **An archive that can be mounted with a key is opened by it**, even by a key
    whose blocks are decrypted to nothing. -/
theorem startsWithHeader_of_parse {file : BhdFile} {bhd : File} (h : file.parse = some bhd) :
    StartsWithHeader file.key file.bytes := by
  obtain ⟨path, key, bytes⟩ := file
  rw [BhdFile.parse] at h
  obtain ⟨plain, hplain, hbhd⟩ := Option.bind_eq_some_iff.1 h
  obtain ⟨hle, hheader⟩ := isHeader_of_tryRef hbhd
  rcases key with _ | key
  · cases hplain
    exact ⟨hle, hheader⟩
  · obtain ⟨⟨inPlace, len⟩, hblocks, rfl⟩ := Option.map_eq_some_iff.1 hplain
    rcases hplace : key.decryptBlocksInPlace bytes with e | res
    · rw [hplace] at hblocks
      cases hblocks
    · rw [hplace] at hblocks
      cases hblocks
      obtain ⟨blocks, outs, rfl, hlen, houts, htake⟩ := RsaDecryptor.blocks_of_decryptBlocksInPlace hplace
      dsimp only at hle hheader
      rw [htake] at hle hheader
      exact ⟨_, ⟨blocks, outs, [], (List.append_nil _).symm, hlen, houts, hle, rfl⟩, hheader⟩

section
variable {R : Type} [IoRead IoError R] {rest : R → List UInt8} {fuel : ℕ} {openFile : BhdPath → Checked R}
  {readKey : PathBuf → Checked RsaKey} {pemPaths : PemPathMap} {archives : List BhdPath} {game : Option Str}
  {keys : Keys} {bhdPath : BhdPath}

theorem opensArchive_eq_ok {key : Option RsaKey} {opens : Bool} (hfills : FillsReads rest)
    (hfuel : ∀ r, openFile bhdPath = .ok r → 2 * BHD5_HEADER_LEN + 1 + (rest r).length < fuel) :
    opensArchive fuel openFile bhdPath key = .ok opens ↔
      ∃ r, openFile bhdPath = .ok r ∧ (opens = true ↔ StartsWithHeader key (rest r)) := by
  rw [opensArchive, bind_eq_ok]
  refine exists_congr fun r => and_congr_right fun hopen => ?_
  obtain ⟨opens', heq, hstarts⟩ := opensWith_eq hfills (hfuel r hopen) key
  rw [heq, expect, Except.ok.injEq, ← hstarts, Bool.eq_iff_iff]
  exact iff_comm

/-- **An archive that could be mounted is not left out**: neither one that is not
    encrypted, nor one that is with a key of the game.  An archive that is not left
    out starts with a header. -/
theorem not_left_out_of_parse (hfills : FillsReads rest) (hpems : Ascending gameKey pemPaths)
    (harchives : archives.Nodup) (hfuel : ∀ bhdPath ∈ archives, ∀ r, openFile bhdPath = .ok r →
      2 * BHD5_HEADER_LEN + 1 + (rest r).length < fuel)
    (h : intoKeysForGameWithFilter readKey (opensArchive fuel openFile) pemPaths archives game = .ok keys)
    (hmem : bhdPath ∈ archives) : ∃ r, openFile bhdPath = .ok r ∧
      (∀ key, keys.byPath bhdPath = some key → StartsWithHeader key (rest r)) ∧
      ∀ key bhd, BhdFile.parse ⟨bhdPath, key, rest r⟩ = some bhd →
        (key = none ∨ ∃ p ∈ candidates pemPaths keys.game, ∃ k, readKey p.2 = .ok k ∧ key = some k) →
          keys.byPath bhdPath ≠ none := by
  have hfound := keysFound_of_ok hpems harchives h
  have hopens : ∀ {key : Option RsaKey} {opens : Bool},
      opensArchive fuel openFile bhdPath key = .ok opens ↔ _ := opensArchive_eq_ok hfills (hfuel bhdPath hmem)
  have hasked : ∃ opens, opensArchive fuel openFile bhdPath none = .ok opens := by
    rcases hkey : keys.byPath bhdPath with _ | _ | key
    · exact ⟨false, (hfound.missing bhdPath hmem hkey).1⟩
    · exact ⟨true, (hfound.plain bhdPath hmem).1 hkey⟩
    · exact ⟨false, (hfound.opens bhdPath key hkey).2.1⟩
  obtain ⟨_, hasked⟩ := hasked
  obtain ⟨r, hopen, -⟩ := hopens.1 hasked
  have hstarts : ∀ {key : Option RsaKey} {opens : Bool}, opensArchive fuel openFile bhdPath key = .ok opens →
      (opens = true ↔ StartsWithHeader key (rest r)) := by
    intro key opens hok
    obtain ⟨r', hopen', hiff⟩ := hopens.1 hok
    cases hopen.symm.trans hopen'
    exact hiff
  refine ⟨r, hopen, fun key hkey => ?_, fun key bhd hparse hcandidate hnone => ?_⟩
  · rcases key with _ | key
    · exact (hstarts ((hfound.plain bhdPath hmem).1 hkey)).1 rfl
    · exact (hstarts (hfound.opens bhdPath key hkey).2.2.1).1 rfl
  · obtain ⟨hplain, hkeys⟩ := hfound.missing bhdPath hmem hnone
    have hheader := startsWithHeader_of_parse hparse
    rcases hcandidate with rfl | ⟨p, hp, k, hk, rfl⟩
    · cases (hstarts hplain).2 hheader
    · cases (hstarts (hkeys p hp k hk)).2 hheader

/-- A key of two bytes. -/
def smallKey : RsaKey := ⟨3233, 17, 2, Nat.two_pos⟩

/-- An image that this key decrypts. -/
def rsaImage : List UInt8 := ds1Image.flatMap fun b => encode .BE 2 (b.toNat ^ 2753 % 3233)

def plainPath : BhdPath := ⟨[], "data0.bhd".toList⟩

def rsaPath : BhdPath := ⟨[], "data1.bhd".toList⟩

def openImage (bhdPath : BhdPath) : Checked (List UInt8) :=
  .ok (if bhdPath = plainPath then ds1Image else rsaImage)

/-- An archive without a key, and one that is decrypted. -/
theorem not_left_out_of_parse_rsaImage : ∃ keys : Keys,
    intoKeysForGameWithFilter (fun _ => .ok smallKey) (@opensArchive _ (IoRead.ofSlice IoError) 200 openImage)
      somePemPaths [plainPath, rsaPath] none = .ok keys ∧ keys.game = some "sekiro".toList ∧
    keys.byPath plainPath ≠ none ∧ keys.byPath rsaPath ≠ none ∧
    ∀ key, keys.byPath rsaPath = some key → StartsWithHeader key rsaImage := by
  have hgame : (intoKeysForGameWithFilter (fun _ => .ok smallKey)
      (@opensArchive _ (IoRead.ofSlice IoError) 200 openImage) somePemPaths [plainPath, rsaPath]
        none).toOption.map Keys.game = some (some "sekiro".toList) := by
    decide +kernel
  rcases hok : intoKeysForGameWithFilter (fun _ => .ok smallKey) (@opensArchive _ (IoRead.ofSlice IoError) 200 openImage)
    somePemPaths [plainPath, rsaPath] none with e | keys
  · rw [hok] at hgame
    cases hgame
  rw [hok] at hgame
  replace hgame : keys.game = some "sekiro".toList := Option.some.inj hgame
  have hfuel : ∀ bhdPath ∈ [plainPath, rsaPath], ∀ r, openImage bhdPath = .ok r →
      2 * BHD5_HEADER_LEN + 1 + r.length < 200 := by
    intro bhdPath _ r hr
    rw [← Except.ok.inj hr]
    split_ifs
    · decide
    · decide
  have hleft := fun bhdPath => @not_left_out_of_parse (List UInt8) (IoRead.ofSlice IoError) (fun bytes => bytes) 200
    openImage (fun _ => .ok smallKey) somePemPaths [plainPath, rsaPath] none keys bhdPath
    (fillsReads_ofSlice IoError) (List.pairwise_singleton _ _) (by decide) hfuel hok
  obtain ⟨_, hopen, -, hplain⟩ := hleft plainPath (by simp)
  obtain ⟨_, hopen', hstarts, hencrypted⟩ := hleft rsaPath (by simp)
  cases hopen
  cases hopen'
  obtain ⟨bhd, hbhd⟩ := Option.isSome_iff_exists.1
    (show (BhdFile.parse ⟨plainPath, none, ds1Image⟩).isSome = true by decide +kernel)
  obtain ⟨bhd', hbhd'⟩ := Option.isSome_iff_exists.1
    (show (BhdFile.parse ⟨rsaPath, some smallKey, rsaImage⟩).isSome = true by decide +kernel)
  have hpem : ("sekiro".toList, ["sekiro".toUTF8.toList, "data1.pem".toUTF8.toList]) ∈
      candidates somePemPaths keys.game := by
    rw [hgame]
    exact List.mem_cons_self
  exact ⟨keys, rfl, hgame, hplain none bhd hbhd (.inl rfl),
    hencrypted _ bhd' hbhd' (.inr ⟨_, hpem, smallKey, rfl, rfl⟩), hstarts⟩

end

end Fsvfs.Dvdbnd
