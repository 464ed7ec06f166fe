/-
  Entries that are found under their hash.

  An entry that is not in the dictionary is filed under its hash in hexadecimal.
  A hash of at most 32 bits is padded with zeros to 8 digits, but one of more
  bits with spaces to 16 characters, so that the name is not a number if the
  hash has less than 61 bits.

  * `foundByHash_iff`: an entry of an archive is found under its hash with all
    16 digits, and its name can be read back, iff its hash has at most 32 or
    more than 60 bits;
  * `not_foundByHash`: an archive with an entry that is not found.
-/
import Fsvfs.Dvdbnd.Entries

namespace Fsvfs.Dvdbnd

open Lib Bhd5

/-! ## Hashes with all their digits -/

/-- A hash in zero-padded hexadecimal: 8 digits if it has at most 32 bits, and
    16 otherwise. -/
def hashDigits (hash : UInt64) : Str :=
  if hash.toNat < 2 ^ 32 then hexName 8 '0' hash.toNat else hexName 16 '0' hash.toNat

/-- The path of a hash: below its first two digits. -/
def hexPath (name : Str) (hash : UInt64) : Str :=
  hiddenDir name ++ '/' :: (hashDigits hash).take 2 ++ '/' :: hashDigits hash

/-- The hash needs no padding, or is padded with zeros. -/
def FullWidth (hash : UInt64) : Prop := hash.toNat < 2 ^ 32 ∨ 2 ^ 60 ≤ hash.toNat

instance (hash : UInt64) : Decidable (FullWidth hash) := inferInstanceAs (Decidable (_ ∨ _))

/-- The first two digits are those of the highest byte. -/
theorem take_hashDigits (hash : UInt64) : (hashDigits hash).take 2 =
    if hash.toNat < 2 ^ 32 then hexName 2 '0' (hash.toNat >>> 24)
    else hexName 2 '0' (hash.toNat >>> 56) := by
  have hlt := hash.toNat_lt
  rw [hashDigits]
  split_ifs with h
  · rw [Nat.shiftRight_eq_div_pow]
    exact take_two_padLeft 6 (by omega)
  · rw [Nat.shiftRight_eq_div_pow]
    exact take_two_padLeft 14 (by omega)

theorem isHexName_hexPath {hash : UInt64} :
    ∀ s ∈ [(hashDigits hash).take 2, hashDigits hash], IsHexName s := by
  intro s hs
  rcases List.mem_pair.1 hs with rfl | rfl
  · rw [take_hashDigits]
    split_ifs
    · exact isHexName_hexName (by omega) (.inl rfl)
    · exact isHexName_hexName (by omega) (.inl rfl)
  · rw [hashDigits]
    split_ifs
    · exact isHexName_hexName (by omega) (.inl rfl)
    · exact isHexName_hexName (by omega) (.inl rfl)

theorem norm_hexPath {name : Str} (h : IsArchiveName name) (hash : UInt64) :
    norm DvdbndConfig (hexPath name hash) =
      [(hiddenDir name).lower, (hashDigits hash).take 2, hashDigits hash] := by
  have hjoin : hexPath name hash =
      joinPath (hiddenDir name :: [(hashDigits hash).take 2, hashDigits hash]) := by
    simp [hexPath, joinPath, List.intercalate]
  rw [hjoin]
  exact norm_joinPath h isHexName_hexPath

/-! ## Padding -/

/-- The last name of a fallback path. -/
def fallbackName (hash : UInt64) : Str :=
  if hash.toNat ≤ 2 ^ 32 - 1 then hexName 8 '0' hash.toNat else hexName 16 ' ' hash.toNat

theorem getLast?_fallbackNames (hash : UInt64) :
    (fallbackNames hash).getLast? = some (fallbackName hash) := by
  rw [fallbackNames, fallbackName]
  split_ifs <;> rfl

/-- A hash without padding by spaces is filed under its digits. -/
theorem fallbackNames_of_fullWidth {hash : UInt64} (h : FullWidth hash) :
    fallbackNames hash = [(hashDigits hash).take 2, hashDigits hash] := by
  rw [take_hashDigits, hashDigits, fallbackNames]
  by_cases h32 : hash.toNat < 2 ^ 32
  · rw [if_pos (by omega), if_pos h32, if_pos h32]
  · have h60 := h.resolve_left h32
    -- all 16 digits are there, so that there is nothing to pad
    have hlen : 16 ≤ (hex hash.toNat).length := by
      by_contra hshort
      have := (length_hex_le_iff (n := hash.toNat) (k := 15) (by omega)).1 (by omega)
      omega
    rw [if_neg (by omega), if_neg h32, if_neg h32, hexName, hexName, hexName, padLeft_of_le hlen,
      padLeft_of_le hlen]

/-- The name of a hash that is padded with spaces is not a number. -/
theorem parseHex_fallbackName (hash : UInt64) :
    parseHex (fallbackName hash) = if FullWidth hash then some hash.toNat else none := by
  by_cases h : FullWidth hash
  · have hnames := congrArg List.getLast? (fallbackNames_of_fullWidth h)
    rw [getLast?_fallbackNames, List.getLast?_cons_cons, List.getLast?_singleton,
      Option.some.injEq] at hnames
    rw [if_pos h, hnames, hashDigits]
    split_ifs
    · exact parseHex_padLeft 8 _
    · exact parseHex_padLeft 16 _
  · obtain ⟨h32, h60⟩ := not_or.1 h
    have hlen := (length_hex_le_iff (n := hash.toNat) (k := 15) (by omega)).2 (by omega)
    rw [if_neg h, fallbackName, if_neg (by omega), hexName]
    exact parseHex_spaces (by omega)

/-- No entry is filed under the digits of a hash that is padded with spaces. -/
theorem fallbackNames_ne {hash : UInt64} (h : ¬ FullWidth hash) (hash' : UInt64) :
    fallbackNames hash' ≠ [(hashDigits hash).take 2, hashDigits hash] := by
  intro heq
  obtain ⟨h32, h60⟩ := not_or.1 h
  have hname : fallbackName hash' = hashDigits hash := by
    have hlast := congrArg List.getLast? heq
    rw [getLast?_fallbackNames, List.getLast?_cons_cons, List.getLast?_singleton] at hlast
    exact Option.some.inj hlast
  have hparse := parseHex_fallbackName hash'
  rw [hname, hashDigits, if_neg h32, hexName, parseHex_padLeft] at hparse
  split_ifs at hparse with hfull
  -- it would be the hash itself
  have hsame : hash = hash' := UInt64.toNat_inj.1 (Option.some.inj hparse)
  exact h (hsame ▸ hfull)

/-! ## Archives without a dictionary -/

/-- An entry with the hash is found under its digits, and the name under which
    it is filed is the hash in hexadecimal. -/
structure FoundByHash (E : Eytzinger) (fs : Rofs DvdbndConfig DvdbndFile) (entries : List Decoded)
    (name : Str) (srcId : SrcId) (hash : UInt64) : Prop where
  found : ∃ i d file, entries[i]? = some d ∧ d.pathHash = hash ∧
    (fs.locate E (hexPath name hash)).bind Node.fileIndex = some i ∧ fs.files[i]? = some file ∧
    file.dataOffset = d.fileOffset ∧ file.len = d.fileSize ∧
    file.unpaddedLen = d.unpaddedFileSize.getD 0 ∧ file.srcId = srcId
  readable : ((norm DvdbndConfig (fallbackPath name hash)).getLast?.bind parseHex) = some hash.toNat

section
variable {E : Eytzinger} {name : Str} {srcId : SrcId} {entries : List Decoded}
  {files : List (Str × DvdbndFile)} {obj : DvdbndObject} {fs : Rofs DvdbndConfig DvdbndFile}
  (hname : IsArchiveName name)
  (hspec : List.Forall₂ (fun d f => Carries (fallbackPath name) srcId d f) entries files)
include hname hspec

/-- What survives under a path is an entry whose fallback path that is. -/
theorem exists_of_survivor {p : List Str} {i : ℕ}
    (h : (p, i) ∈ RofsObject.survivors DvdbndConfig files) : ∃ d f, entries[i]? = some d ∧
      files[i]? = some f ∧ Carries (fallbackPath name) srcId d f ∧
      p = (hiddenDir name).lower :: fallbackNames d.pathHash := by
  obtain ⟨hi, hp⟩ := List.mem_zipIdx' (PathTree.mem_survivors h)
  simp only [List.length_map, List.getElem_map] at hi hp
  have hi' : i < entries.length := by rwa [hspec.length_eq]
  have hc := List.Forall₂.get hspec hi' hi
  simp only [List.get_eq_getElem] at hc
  refine ⟨entries[i], files[i], List.getElem?_eq_getElem hi', List.getElem?_eq_getElem hi, hc, ?_⟩
  rw [hp, hc.path, norm_fallbackPath hname]

/-- The fallback path of every entry survives, in some entry with its hash. -/
theorem exists_survivor {d : Decoded} (hd : d ∈ entries) :
    ∃ i, ((hiddenDir name).lower :: fallbackNames d.pathHash, i) ∈
      RofsObject.survivors DvdbndConfig files := by
  have hpaths : ∀ f ∈ files, ∃ d' ∈ entries,
      norm DvdbndConfig f.1 = norm DvdbndConfig (fallbackPath name d'.pathHash) := by
    intro f hf
    obtain ⟨d', hd', hc⟩ := exists_of_forall₂ hspec f hf
    exact ⟨d', hd', by rw [hc.path]⟩
  obtain ⟨i, hi⟩ := List.mem_iff_getElem?.1 hd
  obtain ⟨hilt, hget⟩ := List.getElem?_eq_some_iff.1 hi
  have hilt' : i < files.length := by rwa [← hspec.length_eq]
  have hc := List.Forall₂.get hspec hilt hilt'
  simp only [List.get_eq_getElem, hget] at hc
  -- every other path is the same or compatible
  have hother : ∀ g ∈ (files.map fun f => norm DvdbndConfig f.1).zipIdx,
      g.1 = norm DvdbndConfig (fallbackPath name d.pathHash) ∨
        PathTree.Compatible g.1 (norm DvdbndConfig (fallbackPath name d.pathHash)) := by
    intro g hg
    obtain ⟨f, hf, hgf⟩ := List.mem_map.1 (List.fst_mem_of_mem_zipIdx hg)
    obtain ⟨d', -, hd'⟩ := hpaths f hf
    rw [← hgf, hd']
    by_cases heq : d'.pathHash = d.pathHash
    · exact Or.inl (by rw [heq])
    · exact Or.inr (compatible_fallbackPath hname heq)
  have hown : ∃ g ∈ (files.map fun f => norm DvdbndConfig f.1).zipIdx,
      g.1 = norm DvdbndConfig (fallbackPath name d.pathHash) := by
    refine ⟨(norm DvdbndConfig files[i].1, i), ?_, by rw [hc.path]⟩
    exact List.mk_mem_zipIdx_iff_getElem?.2 (by simp [hilt'])
  obtain ⟨⟨p, j⟩, hs, rfl⟩ := PathTree.exists_survivor
    (by rw [norm_fallbackPath hname]; simp) hother hown
  rw [← norm_fallbackPath hname]
  exact ⟨j, hs⟩

variable (hobj : RofsObject.new files = some obj) (hfs : obj.IntoRofs E fs)
include hobj hfs

omit hspec in
/-- What the digits of a hash lead to. -/
theorem locate_hexPath_iff (hash : UInt64) (i : ℕ) :
    (fs.locate E (hexPath name hash)).bind Node.fileIndex = some i ↔
      ([(hiddenDir name).lower, (hashDigits hash).take 2, hashDigits hash], i) ∈
        RofsObject.survivors DvdbndConfig files := by
  rw [← norm_hexPath hname, ← RofsObject.locate_file_iff (by decide) RofsObject.caseClosed_dvdbndConfig hobj hfs]
  rcases fs.locate E (hexPath name hash) with _ | ⟨_ | j, _⟩ <;> simp [Node.fileIndex, Node.kind]

/-- A hash without padding by spaces is found. -/
theorem found_of_fullWidth {d : Decoded} (hd : d ∈ entries) (h : FullWidth d.pathHash) :
    FoundByHash E fs entries name srcId d.pathHash := by
  obtain ⟨i, hi⟩ := exists_survivor hname hspec hd
  obtain ⟨d', f, hentry, hf, hc, hp⟩ := exists_of_survivor hname hspec hi
  have hhash : d'.pathHash = d.pathHash :=
    (fallbackNames_injective (List.cons.inj hp).2).symm
  obtain ⟨-, -, -, hobjfiles⟩ := RofsObject.new_eq_some hobj
  have hfile : fs.files[i]? = some f.2 := by
    rw [hfs.flattened.1, hobjfiles]
    simp [hf]
  refine ⟨⟨i, d', f.2, hentry, hhash, ?_, hfile, hc.dataOffset, hc.len, hc.unpaddedLen, hc.srcId⟩, ?_⟩
  · rw [locate_hexPath_iff hname hobj hfs, ← fallbackNames_of_fullWidth h]
    exact hi
  · have hlast := getLast?_fallbackNames d.pathHash
    rw [norm_fallbackPath hname, fallbackNames_of_fullWidth h] at *
    rw [List.getLast?_cons_cons, hlast, Option.bind_some, parseHex_fallbackName, if_pos h]

/-- One with padding by spaces is not. -/
theorem not_found_of_not_fullWidth {hash : UInt64} (h : ¬ FullWidth hash) (i : ℕ) :
    (fs.locate E (hexPath name hash)).bind Node.fileIndex ≠ some i := by
  rw [ne_eq, locate_hexPath_iff hname hobj hfs]
  intro hi
  obtain ⟨d, f, -, -, -, hp⟩ := exists_of_survivor hname hspec hi
  exact fallbackNames_ne h d.pathHash (List.cons.inj hp).2.symm

end

/-- Without a dictionary, an entry is filed under its fallback path. -/
theorem processBhd_none {o : ByteOrder} {bytes : List UInt8} {bhd : File} {name : Str} {srcId : SrcId}
    {files : List (Str × DvdbndFile)} {store : List UInt8} (hbhd : tryRefFromBytes o bytes = .ok bhd)
    (h : processBhd none bhd name srcId = .ok (files, store)) :
    List.Forall₂ (fun d f => Carries (fallbackPath name) srcId d f) bhd.buckets.decoded files :=
  processBhd_spec (length_encryption hbhd) h

/-- **When an entry is found under its hash**: if it has at most 32 or more than
    60 bits. -/
theorem foundByHash_iff {E : Eytzinger} {o : ByteOrder} {bytes : List UInt8} {bhd : File}
    {name : Str} {srcId : SrcId} {files : List (Str × DvdbndFile)} {store : List UInt8}
    (hbhd : tryRefFromBytes o bytes = .ok bhd) (hname : IsArchiveName name)
    (hfiles : processBhd none bhd name srcId = .ok (files, store)) :
    (files.length < 2 ^ 32 → RofsObject.filesSize DvdbndConfig files + 1 < 2 ^ 32 →
      ∃ (obj : DvdbndObject) (fs : Rofs DvdbndConfig DvdbndFile),
        RofsObject.new files = some obj ∧ obj.IntoRofs E fs) ∧
    ∀ (obj : DvdbndObject) (fs : Rofs DvdbndConfig DvdbndFile), RofsObject.new files = some obj →
      obj.IntoRofs E fs → ∀ d ∈ bhd.buckets.decoded,
        (FoundByHash E fs bhd.buckets.decoded name srcId d.pathHash ↔ FullWidth d.pathHash) := by
  have hspec := processBhd_none hbhd hfiles
  refine ⟨fun hlen hsize => ?_, fun obj fs hobj hfs d hd => ⟨fun hfound => ?_, fun hfull => ?_⟩⟩
  · refine RofsObject.exists_intoRofs DvdbndConfig E files hlen hsize fun f hf c hc => ?_
    obtain ⟨d, -, hcarries⟩ := exists_of_forall₂ hspec f hf
    rw [RofsObject.filePath_eq_norm (by decide) RofsObject.caseClosed_dvdbndConfig, hcarries.path,
      norm_fallbackPath hname] at hc
    rcases List.mem_cons.1 hc with rfl | hc
    · rw [Str.length_bytes_lower]
      exact hname.len
    · exact length_fallbackNames c hc
  · by_contra hnot
    obtain ⟨i, _, _, -, -, hloc, -⟩ := hfound.found
    exact not_found_of_not_fullWidth hname hspec hobj hfs hnot i hloc
  · exact found_of_fullWidth hname hspec hobj hfs hd hfull

/-- The entry of the DS1 image, without the dictionary. -/
theorem foundByHash_namedImage : ∃ (obj : DvdbndObject) (fs : Rofs DvdbndConfig DvdbndFile),
    RofsObject.new [(".data0/ec/ec09d5de".toList,
      (⟨0, 16, 0, ⟨.replicate 12 0⟩, none⟩ : DvdbndFile))] = some obj ∧
    obj.IntoRofs Eytzinger.layout fs ∧
    FoundByHash Eytzinger.layout fs namedFile.buckets.decoded "data0".toList ⟨.replicate 12 0⟩
      0xec09d5de := by
  obtain ⟨htotal, h⟩ := @foundByHash_iff Eytzinger.layout .LE namedImage namedFile "data0".toList
    ⟨.replicate 12 0⟩ [(".data0/ec/ec09d5de".toList,
      (⟨0, 16, 0, ⟨.replicate 12 0⟩, none⟩ : DvdbndFile))] [] rfl
    isArchiveName_data0 (by decide +kernel)
  obtain ⟨obj, fs, hobj, hfs⟩ := htotal (by decide) (by decide)
  have hmem : Decoded.of (⟨0xec09d5de, 16, 0⟩ : FileEntryDs) ∈ namedFile.buckets.decoded :=
    List.mem_cons_self
  exact ⟨obj, fs, hobj, hfs, (h obj fs hobj hfs _ hmem).2 (by decide)⟩

/-- An ELDEN RING image whose second entry has a hash of 33 bits. -/
def wideImage : List UInt8 :=
  [0x42, 0x48, 0x44, 0x35, 0xff, 0, 0, 0, 1, 0, 0, 0, 116, 0, 0, 0, 1, 0, 0, 0, 28, 0, 0, 0,
    0, 0, 0, 0, 2, 0, 0, 0, 36, 0, 0, 0,
    1, 0, 0, 0, 0xff, 0xff, 0xff, 0xff, 16, 0, 0, 0, 10, 0, 0, 0, 0, 0, 0, 0, 0, 0, 0, 0,
    0, 0, 0, 0, 0, 0, 0, 0, 0, 0, 0, 0, 0, 0, 0, 0,
    2, 0, 0, 0, 1, 0, 0, 0, 16, 0, 0, 0, 10, 0, 0, 0, 16, 0, 0, 0, 0, 0, 0, 0,
    0, 0, 0, 0, 0, 0, 0, 0, 0, 0, 0, 0, 0, 0, 0, 0]

def wideFile : File where
  format := .EldenRing
  buckets := .EldenRing [⟨36, [⟨0xffffffff00000001, 16, 10, 0, 0, 0⟩, ⟨0x100000002, 16, 10, 16, 0, 0⟩]⟩]
  encryption := [none, none]
  salt := some []

/-- The files of the image: the name of the second one starts with spaces. -/
def wideFiles : List (Str × DvdbndFile) :=
  [(".data0/ff/ffffffff00000001".toList, ⟨0, 16, 10, ⟨.replicate 12 0⟩, none⟩),
    (".data0/00/       100000002".toList, ⟨16, 16, 10, ⟨.replicate 12 0⟩, none⟩)]

/-- Its second entry is not found under `.data0/00/0000000100000002`. -/
theorem not_foundByHash : ∃ (obj : DvdbndObject) (fs : Rofs DvdbndConfig DvdbndFile),
    tryRefFromBytes .LE wideImage = .ok wideFile ∧
    processBhd none wideFile "data0".toList ⟨.replicate 12 0⟩ = .ok (wideFiles, []) ∧
    RofsObject.new wideFiles = some obj ∧ obj.IntoRofs Eytzinger.layout fs ∧
    ∃ d ∈ wideFile.buckets.decoded, d.pathHash = 0x100000002 ∧
      ¬ FoundByHash Eytzinger.layout fs wideFile.buckets.decoded "data0".toList
        ⟨.replicate 12 0⟩ d.pathHash := by
  have hbhd : tryRefFromBytes .LE wideImage = .ok wideFile := rfl
  have hfiles : processBhd none wideFile "data0".toList ⟨.replicate 12 0⟩ = .ok (wideFiles, []) := by
    decide +kernel
  obtain ⟨obj, fs, hobj, hfs⟩ := RofsObject.exists_intoRofs DvdbndConfig Eytzinger.layout wideFiles
    (by decide) (by decide) (by decide)
  have hmem : Decoded.of (⟨0x100000002, 16, 10, 16, 0, 0⟩ : FileEntryEr) ∈
      wideFile.buckets.decoded := List.mem_cons_of_mem _ List.mem_cons_self
  refine ⟨obj, fs, hbhd, hfiles, hobj, hfs, _, hmem, rfl, fun hfound => ?_⟩
  obtain ⟨i, _, _, -, -, hloc, -⟩ := hfound.found
  exact not_found_of_not_fullWidth isArchiveName_data0 (processBhd_none hbhd hfiles) hobj hfs (by decide) i hloc

end Fsvfs.Dvdbnd
