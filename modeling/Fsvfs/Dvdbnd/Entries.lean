/-
  No entry of an archive is lost or duplicated.

  An entry is filed under its line of the dictionary, or under a path made of
  its hash.  These paths do not get in each other's way (`compatible_entryPath`),
  so that all of them survive in `RofsObject::new`, and every entry is carried
  by exactly one node (`no_entry_lost`).
-/
import Fsvfs.Bhd5.Image
import Fsvfs.Dvdbnd.Filesystem
import Fsvfs.Filesystem.Files
import Fsvfs.Filesystem.Merge

namespace Fsvfs.Dvdbnd

open Lib Bhd5

/-! ## Processing -/

/-- A file carries an entry. -/
structure Carries (path : UInt64 → Str) (srcId : SrcId) (d : Decoded) (f : Str × DvdbndFile) :
    Prop where
  path : f.1 = path d.pathHash
  dataOffset : f.2.dataOffset = d.fileOffset
  len : f.2.len = d.fileSize
  unpaddedLen : f.2.unpaddedLen = d.unpaddedFileSize.getD 0
  srcId : f.2.srcId = srcId

/-- Every entry is carried by the file at its position. -/
theorem processEntries_spec {E : Type} [FileEntry E] {path : UInt64 → Str} {srcId : SrcId} :
    ∀ {l : List (E × Option (Ref Encryption))} {store store' : List UInt8}
      {files : List (Str × DvdbndFile)},
      processEntries path srcId l store = .ok (files, store') →
        List.Forall₂ (fun e f => Carries path srcId (Decoded.of e) f) (l.map Prod.fst) files
  | [], _, _, _, h => by
    cases h
    exact .nil
  | (entry, encryption) :: rest, store, store', files, h => by
    rw [processEntries] at h
    rcases h1 : storeEntry entry encryption store with err | ⟨id, store₁⟩
    · rw [h1] at h
      cases h
    rw [h1] at h
    rcases h2 : processEntries path srcId rest store₁ with err | ⟨files', store₂⟩
    · simp only [bind, Except.bind, h2] at h
      cases h
    · simp only [bind, Except.bind, h2] at h
      cases h
      exact .cons ⟨rfl, rfl, rfl, rfl, rfl⟩ (processEntries_spec h2)

/-- **Every entry of an archive is carried by the file at its position.** -/
theorem processBhd_spec {dict : Option Dictionary} {bhd : File} {name : Str} {srcId : SrcId}
    {files : List (Str × DvdbndFile)} {store : List UInt8}
    (hlen : bhd.encryption.length = bhd.buckets.decoded.length)
    (h : processBhd dict bhd name srcId = .ok (files, store)) :
    List.Forall₂ (fun d f => Carries (entryPath (hashesOf dict d.u64Hash name) name) srcId d f)
      bhd.buckets.decoded files := by
  have key : ∀ {E : Type} [FileEntry E] (l : List (Ref (List E))),
      bhd.encryption.length = (decoded l).length →
      processFiles dict l name srcId bhd.encryption = .ok (files, store) →
        List.Forall₂ (fun d f => Carries (entryPath (hashesOf dict d.u64Hash name) name) srcId d f)
          (decoded l) files := by
    intro E _ l hlen h
    have hspec := processEntries_spec h
    rw [decoded, List.length_map] at hlen
    rw [List.map_fst_zip (by omega)] at hspec
    rw [decoded, List.forall₂_map_left_iff]
    exact hspec
  unfold processBhd at h
  rcases hb : bhd.buckets with l | l | l | l <;> rw [hb] at hlen h <;> exact key l hlen h

/-! ## Paths -/

/-- The directory of the entries that are not in the dictionary. -/
def hiddenDir (name : Str) : Str := '.' :: name

/-- The names of archives: short, and free of dots and separators. -/
structure IsArchiveName (name : Str) : Prop where
  ne_nil : name ≠ []
  dot : '.' ∉ name
  sep : ∀ c ∈ name, c ∉ DvdbndConfig.separators
  len : (hiddenDir name).bytes.length ≤ 255

theorem isArchiveName_data0 : IsArchiveName "data0".toList where
  ne_nil := nofun
  dot := by decide
  sep := fun c hc hsep => by
    have hnotin : '/' ∉ "data0".toList ∧ '\\' ∉ "data0".toList := by decide
    obtain rfl | rfl := List.mem_pair.1 hsep
    · exact hnotin.1 hc
    · exact hnotin.2 hc
  len := by decide

/-- A padded number as a name. -/
def hexName (w : ℕ) (c : Char) (n : ℕ) : Str := padLeft w c (hex n)

/-- The two names of a fallback path in the directory of the archive. -/
def fallbackNames (hash : UInt64) : List Str :=
  if hash.toNat ≤ 2 ^ 32 - 1 then [hexName 2 '0' (hash.toNat >>> 24), hexName 8 '0' hash.toNat]
  else [hexName 2 '0' (hash.toNat >>> 56), hexName 16 ' ' hash.toNat]

theorem fallbackPath_eq (name : Str) (hash : UInt64) :
    fallbackPath name hash = joinPath (hiddenDir name :: fallbackNames hash) := by
  simp only [fallbackPath, fallbackNames]
  split_ifs <;> simp [joinPath, List.intercalate, hiddenDir, hexName]

/-- A padded number is a name of ASCII characters in lowercase. -/
structure IsHexName (s : Str) : Prop where
  component : IsComponent DvdbndConfig s
  lower : s.lower = s
  len : s.bytes.length = s.length

theorem isHexName_hexName {w n : ℕ} {c : Char} (hw : 2 ≤ w) (hc : c = '0' ∨ c = ' ') :
    IsHexName (hexName w c n) := by
  have hdigit : ∀ d < 16, Nat.digitChar d ∉ DvdbndConfig.separators ∧ Nat.digitChar d ≠ '.' ∧
      (Nat.digitChar d).toLower = Nat.digitChar d ∧ (Nat.digitChar d).utf8Size = 1 := by
    decide
  have hchar : ∀ x ∈ hexName w c n, x ∉ DvdbndConfig.separators ∧ x ≠ '.' ∧
      x.toLower = x ∧ x.utf8Size = 1 := by
    intro x hx
    rcases mem_padLeft hx with rfl | ⟨d, hd, rfl⟩
    · rcases hc with rfl | rfl <;> decide
    · exact hdigit d hd
  have hlen : 0 < (hexName w c n).length := by
    rw [hexName, length_padLeft]
    omega
  obtain ⟨x, s, hs⟩ := List.exists_cons_of_length_pos hlen
  have hx := (hchar x (by rw [hs]; exact List.mem_cons_self)).2.1
  refine ⟨⟨by simp [hs], fun h => ?_, fun h => ?_, fun x hx => (hchar x hx).1⟩, ?_, ?_⟩
  · rw [hs] at h
    exact hx (List.cons.inj h).1
  · rw [hs] at h
    exact hx (List.cons.inj h).1
  · exact (List.map_congr_left fun x hx => (hchar x hx).2.2.1).trans (List.map_id _)
  · rw [Str.length_bytes, List.map_congr_left fun x hx => (hchar x hx).2.2.2]
    simp

theorem isHexName_fallbackNames {hash : UInt64} : ∀ s ∈ fallbackNames hash, IsHexName s := by
  intro s hs
  unfold fallbackNames at hs
  split_ifs at hs <;> rcases List.mem_pair.1 hs with rfl | rfl
  · exact isHexName_hexName (by omega) (.inl rfl)
  · exact isHexName_hexName (by omega) (.inl rfl)
  · exact isHexName_hexName (by omega) (.inl rfl)
  · exact isHexName_hexName (by omega) (.inr rfl)

/-- The hash can be read off its path. -/
theorem fallbackNames_injective {hash hash' : UInt64}
    (h : fallbackNames hash = fallbackNames hash') : hash = hash' := by
  have hread : ∀ hash, (fallbackNames hash).getLast?.map unhex = some hash.toNat := by
    intro hash
    unfold fallbackNames
    split_ifs
    · exact congrArg some (unhex_pad (by decide) 8 _)
    · exact congrArg some (unhex_pad (by decide) 16 _)
  have := hread hash
  rw [h, hread hash'] at this
  exact UInt64.toNat_inj.1 (Option.some.inj this).symm

/-- The names have at most 16 characters. -/
theorem length_fallbackNames {hash : UInt64} : ∀ s ∈ fallbackNames hash, s.bytes.length ≤ 255 := by
  intro s hs
  rw [(isHexName_fallbackNames s hs).len]
  have hlt := hash.toNat_lt
  have hhex : ∀ n : ℕ, n < 2 ^ 64 → (hex n).length ≤ 16 := fun n hn =>
    (Nat.length_toDigits_le_iff (by omega) (by omega)).2 (by omega)
  have hshift : ∀ k, (hex (hash.toNat >>> k)).length ≤ 16 := fun k => by
    refine hhex _ (Nat.lt_of_le_of_lt ?_ hlt)
    rw [Nat.shiftRight_eq_div_pow]
    exact Nat.div_le_self _ _
  have h24 := hshift 24
  have h56 := hshift 56
  have h0 := hhex hash.toNat hlt
  unfold fallbackNames at hs
  split_ifs at hs <;> rcases List.mem_pair.1 hs with rfl | rfl <;> rw [hexName, length_padLeft] <;>
    omega

theorem IsArchiveName.isComponent {name : Str} (h : IsArchiveName name) :
    IsComponent DvdbndConfig (hiddenDir name) := by
  obtain ⟨c, s, rfl⟩ := List.exists_cons_of_ne_nil h.ne_nil
  refine ⟨by simp [hiddenDir], by simp [hiddenDir], fun hdots => ?_, fun x hx => ?_⟩
  · have hc : c = '.' := (List.cons.inj (List.cons.inj hdots).2).1
    exact h.dot (by rw [hc]; exact List.mem_cons_self)
  · rcases List.mem_cons.1 hx with rfl | hx
    · decide
    · exact h.sep x hx

/-- Names of numbers in the directory of an archive, as a path. -/
theorem norm_joinPath {name : Str} (h : IsArchiveName name) {cs : List Str}
    (hcs : ∀ c ∈ cs, IsHexName c) :
    norm DvdbndConfig (joinPath (hiddenDir name :: cs)) = (hiddenDir name).lower :: cs := by
  have hcomp : ∀ c ∈ hiddenDir name :: cs, IsComponent DvdbndConfig c :=
    List.forall_mem_cons.2 ⟨h.isComponent, fun c hc => (hcs c hc).component⟩
  have hsep : '/' ∈ DvdbndConfig.separators := by decide
  rw [norm, ← components_normalizePath hsep, components_joinPath hsep hcomp, List.map_cons]
  exact congrArg _ ((List.map_congr_left fun c hc => (hcs c hc).lower).trans (List.map_id _))

/-- **Where an entry without a line in the dictionary is filed.** -/
theorem norm_fallbackPath {name : Str} (h : IsArchiveName name) (hash : UInt64) :
    norm DvdbndConfig (fallbackPath name hash) = (hiddenDir name).lower :: fallbackNames hash := by
  rw [fallbackPath_eq]
  exact norm_joinPath h isHexName_fallbackNames

/-- The paths of different hashes do not get in each other's way. -/
theorem compatible_fallbackPath {name : Str} (h : IsArchiveName name) {hash hash' : UInt64}
    (hne : hash ≠ hash') : PathTree.Compatible (norm DvdbndConfig (fallbackPath name hash))
      (norm DvdbndConfig (fallbackPath name hash')) := by
  have hlen : ∀ hash, (fallbackNames hash).length = 2 := by
    intro hash
    unfold fallbackNames
    split_ifs <;> rfl
  rw [norm_fallbackPath h, norm_fallbackPath h]
  refine ⟨fun hp => hne ?_, fun hp => hne.symm ?_⟩
  · exact fallbackNames_injective ((List.cons_prefix_cons.1 hp).2.eq_of_length (by rw [hlen, hlen]))
  · exact fallbackNames_injective ((List.cons_prefix_cons.1 hp).2.eq_of_length (by rw [hlen, hlen]))

/-! ## The dictionary -/

/-- The lines of the dictionary for an archive. -/
def dictLines (dict : Option Dictionary) (name : Str) : List Str :=
  ((dict.bind fun dict => dict.byBnd name.lower).map lines).getD []

/-- A line has the hash of an entry. -/
def HasHash (u64Hash : Bool) (hash : UInt64) (path : Str) : Prop := match u64Hash with
  | false => hashPath32 path = some hash.toUInt32
  | true => hashPath64 path = some hash

instance (u64Hash : Bool) (hash : UInt64) (path : Str) : Decidable (HasHash u64Hash hash path) := by
  cases u64Hash
  · exact inferInstanceAs (Decidable (hashPath32 path = some hash.toUInt32))
  · exact inferInstanceAs (Decidable (hashPath64 path = some hash))

/-- The path of an entry in the dictionary: the last line with its hash. -/
def dictPath (dict : Option Dictionary) (name : Str) (d : Decoded) : Option Str :=
  ((dictLines dict name).filter fun path => HasHash d.u64Hash d.pathHash path).getLast?

theorem entryPath_eq (dict : Option Dictionary) (name : Str) (d : Decoded) :
    entryPath (hashesOf dict d.u64Hash name) name d.pathHash =
      (dictPath dict name d).getD (fallbackPath name d.pathHash) := by
  have hget : ((hashesOf dict d.u64Hash name).bind fun hashes => hashes.get d.pathHash) =
      dictPath dict name d := by
    rcases dict with _ | dict
    · rfl
    · rcases hu : d.u64Hash with _ | _
      · simp only [dictPath, hu]
        exact get_filterMap hashPath32 _ _
      · simp only [dictPath, hu]
        exact get_filterMap hashPath64 _ _
  rw [entryPath, hget]

/-- A line of the dictionary has the hash of some entry. -/
def IsMatch (dict : Option Dictionary) (name : Str) (entries : List Decoded) (path : Str) : Prop :=
  path ∈ dictLines dict name ∧ ∃ d ∈ entries, HasHash d.u64Hash d.pathHash path

/-- The matching lines of the dictionary do not get in each other's way, nor in
    the way of the entries without a line. -/
structure ConflictFree (dict : Option Dictionary) (name : Str) (entries : List Decoded) : Prop where
  ne_nil : ∀ p, IsMatch dict name entries p → norm DvdbndConfig p ≠ []
  compatible : ∀ p q, IsMatch dict name entries p → IsMatch dict name entries q → p ≠ q →
    PathTree.Compatible (norm DvdbndConfig p) (norm DvdbndConfig q)
  outside : ∀ p, IsMatch dict name entries p →
    ¬ [(hiddenDir name).lower] <+: norm DvdbndConfig p
  len : ∀ p, IsMatch dict name entries p → ∀ c ∈ norm DvdbndConfig p, c.bytes.length ≤ 255

section
variable {dict : Option Dictionary} {name : Str} {b : Buckets}

theorem isMatch_of_dictPath {d : Decoded} {entries : List Decoded} {path : Str} (hd : d ∈ entries)
    (h : dictPath dict name d = some path) :
    IsMatch dict name entries path ∧ HasHash d.u64Hash d.pathHash path := by
  have hmem := List.mem_filter.1 (List.mem_of_getLast? h)
  have hhash := of_decide_eq_true hmem.2
  exact ⟨⟨hmem.1, d, hd, hhash⟩, hhash⟩

/-- A line has the hash of one entry. -/
theorem HasHash.unique {d d' : Decoded} {path : Str} (hd : d ∈ b.decoded) (hd' : d' ∈ b.decoded)
    (h : HasHash d.u64Hash d.pathHash path) (h' : HasHash d'.u64Hash d'.pathHash path) :
    d.pathHash = d'.pathHash := by
  rw [← Buckets.u64Hash_eq hd hd'] at h'
  rcases hu : d.u64Hash with _ | _
  · rw [hu] at h h'
    have heq : d.pathHash.toUInt32 = d'.pathHash.toUInt32 := Option.some.inj (h.symm.trans h')
    have hlt := Buckets.pathHash_lt hd hu
    have hlt' := Buckets.pathHash_lt hd' (Buckets.u64Hash_eq hd hd' ▸ hu)
    have hnat := congrArg UInt32.toNat heq
    rw [UInt64.toNat_toUInt32, UInt64.toNat_toUInt32, Nat.mod_eq_of_lt hlt,
      Nat.mod_eq_of_lt hlt'] at hnat
    exact UInt64.toNat_inj.1 hnat
  · rw [hu] at h h'
    exact Option.some.inj (h.symm.trans h')

variable (hname : IsArchiveName name) (hdict : ConflictFree dict name b.decoded)
include hname hdict

/-- The path of an entry has names, none of them too long. -/
theorem norm_entryPath {d : Decoded} (hd : d ∈ b.decoded) :
    norm DvdbndConfig (entryPath (hashesOf dict d.u64Hash name) name d.pathHash) ≠ [] ∧
      ∀ c ∈ norm DvdbndConfig (entryPath (hashesOf dict d.u64Hash name) name d.pathHash),
        c.bytes.length ≤ 255 := by
  rw [entryPath_eq]
  rcases hp : dictPath dict name d with _ | path
  · rw [Option.getD_none, norm_fallbackPath hname]
    refine ⟨by simp, List.forall_mem_cons.2 ⟨?_, length_fallbackNames⟩⟩
    rw [Str.length_bytes_lower]
    exact hname.len
  · obtain ⟨hm, -⟩ := isMatch_of_dictPath hd hp
    exact ⟨hdict.ne_nil _ hm, hdict.len _ hm⟩

/-- **The paths of two entries do not get in each other's way.** -/
theorem compatible_entryPath {d d' : Decoded} (hd : d ∈ b.decoded) (hd' : d' ∈ b.decoded)
    (hne : d.pathHash ≠ d'.pathHash) : PathTree.Compatible
      (norm DvdbndConfig (entryPath (hashesOf dict d.u64Hash name) name d.pathHash))
      (norm DvdbndConfig (entryPath (hashesOf dict d'.u64Hash name) name d'.pathHash)) := by
  -- a line of the dictionary against a hidden path
  have hmixed : ∀ {p : Str} {hash : UInt64}, IsMatch dict name b.decoded p →
      PathTree.Compatible (norm DvdbndConfig p) (norm DvdbndConfig (fallbackPath name hash)) := by
    intro p hash hm
    have hout := hdict.outside p hm
    rw [norm_fallbackPath hname]
    rcases hp : norm DvdbndConfig p with _ | ⟨c, cs⟩
    · exact absurd hp (hdict.ne_nil p hm)
    · rw [hp] at hout
      refine ⟨fun h => hout ?_, fun h => hout ?_⟩
      · rw [(List.cons_prefix_cons.1 h).1]
        exact ⟨cs, rfl⟩
      · exact List.IsPrefix.trans ⟨_, rfl⟩ h
  rw [entryPath_eq, entryPath_eq]
  rcases hp : dictPath dict name d with _ | p <;> rcases hq : dictPath dict name d' with _ | q
  · exact compatible_fallbackPath hname hne
  · exact (hmixed (isMatch_of_dictPath hd' hq).1).symm
  · exact hmixed (isMatch_of_dictPath hd hp).1
  · obtain ⟨hmp, hhp⟩ := isMatch_of_dictPath hd hp
    obtain ⟨hmq, hhq⟩ := isMatch_of_dictPath hd' hq
    refine hdict.compatible p q hmp hmq ?_
    rintro rfl
    exact hne (HasHash.unique hd hd' hhp hhq)

end

/-! ## The filesystem of an archive -/

/-- There is one piece of encryption data for every entry. -/
theorem length_encryption {o : ByteOrder} {bytes : List UInt8} {bhd : File}
    (h : tryRefFromBytes o bytes = .ok bhd) :
    bhd.encryption.length = bhd.buckets.decoded.length := by
  obtain ⟨header, hheader⟩ := header_of_tryRef h
  have hwf := wellFormed_of_header hheader h
  have hviews : bhd.buckets.views.length = bhd.buckets.decoded.length := by
    rcases bhd.buckets with l | l | l | l <;> simp [Buckets.views, Buckets.decoded, decoded]
  rw [← hwf.encryption.length_eq, hviews]

/-- A filesystem carries an entry in exactly one node, which its path leads to. -/
structure CarriedOnce (E : Eytzinger) (fs : Rofs DvdbndConfig DvdbndFile) (dict : Option Dictionary)
    (name : Str) (srcId : SrcId) (i : ℕ) (d : Decoded) : Prop where
  file : ∃ file, fs.files[i]? = some file ∧ file.dataOffset = d.fileOffset ∧ file.len = d.fileSize ∧
    file.unpaddedLen = d.unpaddedFileSize.getD 0 ∧ file.srcId = srcId
  node : ∃! n : ℕ, ∃ node : Node, fs.nodes[n]? = some node ∧ node.fileIndex = some i
  named : ∀ path, dictPath dict name d = some path →
    (fs.locate E path).bind Node.fileIndex = some i
  hidden : dictPath dict name d = none →
    [(hiddenDir name).lower] <+: norm DvdbndConfig (fallbackPath name d.pathHash) ∧
      (fs.locate E (fallbackPath name d.pathHash)).bind Node.fileIndex = some i

theorem fileIndex_of_kind {node : Node} {i : ℕ} (h : node.kind = .file i) :
    node.fileIndex = some i := by
  rcases node with ⟨_ | j, _⟩
  · cases h
  · cases h
    rfl

/-- What `locate` finds is a node. -/
theorem getElem_of_locate {E : Eytzinger} {fs : Rofs DvdbndConfig DvdbndFile} {path : Str}
    {node : Node} (h : fs.locate E path = some node) : ∃ n : ℕ, fs.nodes[n]? = some node := by
  unfold Rofs.locate at h
  rcases hl : fs.lookup E path with err | inode
  · simp only [hl] at h
    cases h
  · simp only [hl] at h
    exact ⟨_, h⟩

section
variable {dict : Option Dictionary} {name : Str} {srcId : SrcId} {b : Buckets}
  {files : List (Str × DvdbndFile)}
  (hspec : List.Forall₂
    (fun d f => Carries (entryPath (hashesOf dict d.u64Hash name) name) srcId d f) b.decoded files)
include hspec

theorem exists_file {i : ℕ} {d : Decoded} (hd : b.decoded[i]? = some d) :
    ∃ f, files[i]? = some f ∧ Carries (entryPath (hashesOf dict d.u64Hash name) name) srcId d f := by
  obtain ⟨hi, rfl⟩ := List.getElem?_eq_some_iff.1 hd
  have hi' : i < files.length := by
    rw [← hspec.length_eq]
    exact hi
  exact ⟨files[i], List.getElem?_eq_getElem hi', List.Forall₂.get hspec hi hi'⟩

/-- **The files of an archive all survive.** -/
theorem survivors_files (hname : IsArchiveName name)
    (hdistinct : (b.decoded.map Decoded.pathHash).Nodup) (hdict : ConflictFree dict name b.decoded) :
    RofsObject.survivors DvdbndConfig files =
      (files.map fun f => norm DvdbndConfig f.1).zipIdx := by
  have hlen := hspec.length_eq
  refine PathTree.survivors_of_pairwise (fun p hp => ?_) ?_
  · obtain ⟨f, hf, hp⟩ := List.mem_map.1 (List.fst_mem_of_mem_zipIdx hp)
    obtain ⟨d, hd, hc⟩ := exists_of_forall₂ hspec f hf
    rw [← hp, hc.path]
    exact (norm_entryPath hname hdict hd).1
  · rw [List.pairwise_iff_getElem]
    intro i j hi hj hij
    rw [List.length_zipIdx, List.length_map] at hi hj
    have hdi : i < b.decoded.length := by omega
    have hdj : j < b.decoded.length := by omega
    have hci := List.Forall₂.get hspec hdi hi
    have hcj := List.Forall₂.get hspec hdj hj
    simp only [List.getElem_zipIdx, List.getElem_map]
    simp only [List.get_eq_getElem] at hci hcj
    rw [hci.path, hcj.path]
    refine compatible_entryPath hname hdict (List.getElem_mem _) (List.getElem_mem _) fun h => ?_
    have hi' : i < (b.decoded.map Decoded.pathHash).length := by simpa using hdi
    have hj' : j < (b.decoded.map Decoded.pathHash).length := by simpa using hdj
    have hhash : (b.decoded.map Decoded.pathHash)[i] = (b.decoded.map Decoded.pathHash)[j] := by
      simpa using h
    have heq := hdistinct.getElem_inj_iff.1 hhash
    omega

end

/-- **No entry of an archive is lost or duplicated.** -/
theorem no_entry_lost {E : Eytzinger} {o : ByteOrder} {bytes : List UInt8} {bhd : File}
    {dict : Option Dictionary} {name : Str} {srcId : SrcId} {files : List (Str × DvdbndFile)}
    {store : List UInt8} (hbhd : tryRefFromBytes o bytes = .ok bhd) (hname : IsArchiveName name)
    (hdistinct : (bhd.buckets.decoded.map Decoded.pathHash).Nodup)
    (hdict : ConflictFree dict name bhd.buckets.decoded)
    (hfiles : processBhd dict bhd name srcId = .ok (files, store)) :
    (files.length < 2 ^ 32 → RofsObject.filesSize DvdbndConfig files + 1 < 2 ^ 32 →
      ∃ (obj : DvdbndObject) (fs : Rofs DvdbndConfig DvdbndFile),
        RofsObject.new files = some obj ∧ obj.IntoRofs E fs) ∧
    ∀ (obj : DvdbndObject) (fs : Rofs DvdbndConfig DvdbndFile), RofsObject.new files = some obj →
      obj.IntoRofs E fs → fs.fileCount = bhd.buckets.decoded.length ∧
        ∀ i d, bhd.buckets.decoded[i]? = some d → CarriedOnce E fs dict name srcId i d := by
  have hspec := processBhd_spec (length_encryption hbhd) hfiles
  have hsurv := survivors_files hspec hname hdistinct hdict
  have hclosed := RofsObject.caseClosed_dvdbndConfig
  refine ⟨fun hlen hsize => ?_, fun obj fs hobj hfs => ?_⟩
  · refine RofsObject.exists_intoRofs DvdbndConfig E files hlen hsize fun f hf => ?_
    obtain ⟨d, hd, hc⟩ := exists_of_forall₂ hspec f hf
    rw [RofsObject.filePath_eq_norm (by decide) hclosed, hc.path]
    exact (norm_entryPath hname hdict hd).2
  · obtain ⟨-, -, -, hobjfiles⟩ := RofsObject.new_eq_some hobj
    obtain ⟨hfsfiles, -⟩ := hfs.flattened
    have hnodup := (hfs.fileNodes.nodup_iff).2 (RofsObject.nodup_leaves_new hobj)
    rw [hobjfiles] at hfsfiles
    refine ⟨by rw [Rofs.fileCount, hfsfiles, List.length_map, hspec.length_eq], fun i d hd => ?_⟩
    obtain ⟨f, hf, hc⟩ := exists_file hspec hd
    -- the path leads to a node with the index of the entry
    have hmem : (norm DvdbndConfig (entryPath (hashesOf dict d.u64Hash name) name d.pathHash), i) ∈
        RofsObject.survivors DvdbndConfig files := by
      rw [hsurv, ← hc.path]
      exact List.mk_mem_zipIdx_iff_getElem?.2 (by simp [hf])
    obtain ⟨node, hnode, hkind⟩ :=
      Option.map_eq_some_iff.1 ((RofsObject.locate_file_iff (by decide) hclosed hobj hfs _ i).2 hmem)
    have hindex := fileIndex_of_kind hkind
    have hloc : (fs.locate E (entryPath (hashesOf dict d.u64Hash name) name d.pathHash)).bind
        Node.fileIndex = some i := by
      rw [hnode]
      exact hindex
    rw [entryPath_eq] at hloc
    refine ⟨⟨f.2, by simp [hfsfiles, hf], hc.dataOffset, hc.len, hc.unpaddedLen, hc.srcId⟩, ?_,
      fun path hpath => ?_, fun hpath => ⟨?_, ?_⟩⟩
    · obtain ⟨n, hn⟩ := getElem_of_locate hnode
      refine ⟨n, ⟨node, hn, hindex⟩, ?_⟩
      rintro m ⟨node', hm, hindex'⟩
      exact fileNode_unique hnodup hm hn hindex' hindex
    · rwa [hpath] at hloc
    · rw [norm_fallbackPath hname]
      exact ⟨_, rfl⟩
    · rwa [hpath] at hloc

/-- A DS1 image whose one entry has the hash of `/action/eventnameid.txt`. -/
def namedImage : List UInt8 :=
  [0x42, 0x48, 0x44, 0x35, 0xff, 0, 0, 0, 1, 0, 0, 0, 48, 0, 0, 0, 1, 0, 0, 0, 24, 0, 0, 0,
    1, 0, 0, 0, 32, 0, 0, 0, 0xde, 0xd5, 0x09, 0xec, 16, 0, 0, 0, 0, 0, 0, 0, 0, 0, 0, 0]

def namedFile : File where
  format := .DarkSouls
  buckets := .DarkSouls [⟨32, [⟨0xec09d5de, 16, 0⟩]⟩]
  encryption := [none]
  salt := none

def namedDict : Dictionary where
  byBnd name := if name = "data0".toList then some "/action/eventnameid.txt\n".toList else none

/-- A DS1 image of three entries, of which the first two have names. -/
def namesImage : List UInt8 :=
  [0x42, 0x48, 0x44, 0x35, 0xff, 0, 0, 0, 1, 0, 0, 0, 80, 0, 0, 0, 1, 0, 0, 0, 24, 0, 0, 0,
    3, 0, 0, 0, 32, 0, 0, 0, 0xde, 0xd5, 0x09, 0xec, 16, 0, 0, 0, 0, 0, 0, 0, 0, 0, 0, 0,
    0x42, 0xec, 0x3e, 0xcd, 16, 0, 0, 0, 16, 0, 0, 0, 0, 0, 0, 0,
    7, 0, 0, 0, 16, 0, 0, 0, 32, 0, 0, 0, 0, 0, 0, 0]

def namesFile : File where
  format := .DarkSouls
  buckets := .DarkSouls [⟨32, [⟨0xec09d5de, 16, 0⟩, ⟨0xcd3eec42, 16, 16⟩, ⟨7, 16, 32⟩]⟩]
  encryption := [none, none, none]
  salt := none

def namesDict : Dictionary where
  byBnd name :=
    if name = "data0".toList then some "/action/eventnameid.txt\n/a.txt\n".toList
    else if name = "data1".toList then some "/action\n".toList
    else none

/-- The lines of the dictionary for `data0`. -/
def namesLines : List Str := ["/action/eventnameid.txt".toList, "/a.txt".toList]

theorem conflictFree_namesDict (entries : List Decoded) :
    ConflictFree (some namesDict) "data0".toList entries := by
  have hlines : dictLines (some namesDict) "data0".toList = namesLines := by decide
  have hmem : ∀ {p}, IsMatch (some namesDict) "data0".toList entries p → p ∈ namesLines := fun h => hlines ▸ h.1
  have hnames : ∀ p ∈ namesLines, norm DvdbndConfig p ≠ [] ∧
      ¬ [(hiddenDir "data0".toList).lower] <+: norm DvdbndConfig p ∧
        ∀ c ∈ norm DvdbndConfig p, c.bytes.length ≤ 255 := by decide
  have hcompatible : ∀ p ∈ namesLines, ∀ q ∈ namesLines, p ≠ q →
      PathTree.Compatible (norm DvdbndConfig p) (norm DvdbndConfig q) := by decide
  exact {
    ne_nil := fun p hp => (hnames p (hmem hp)).1
    compatible := fun p q hp hq => hcompatible p (hmem hp) q (hmem hq)
    outside := fun p hp => (hnames p (hmem hp)).2.1
    len := fun p hp => (hnames p (hmem hp)).2.2 }

theorem no_entry_lost_namesImage : ∃ (files : List (Str × DvdbndFile)) (obj : DvdbndObject)
    (fs : Rofs DvdbndConfig DvdbndFile), RofsObject.new files = some obj ∧ obj.IntoRofs Eytzinger.layout fs ∧
    fs.fileCount = 3 ∧
    (fs.locate Eytzinger.layout "/action/eventnameid.txt".toList).bind Node.fileIndex = some 0 ∧
    (fs.locate Eytzinger.layout "/a.txt".toList).bind Node.fileIndex = some 1 ∧
    (fs.locate Eytzinger.layout ".data0/00/00000007".toList).bind Node.fileIndex = some 2 := by
  have hfiles : processBhd (some namesDict) namesFile "data0".toList ⟨.replicate 12 0⟩ =
      .ok ([("/action/eventnameid.txt".toList, ⟨0, 16, 0, ⟨.replicate 12 0⟩, none⟩),
        ("/a.txt".toList, ⟨16, 16, 0, ⟨.replicate 12 0⟩, none⟩),
        (".data0/00/00000007".toList, ⟨32, 16, 0, ⟨.replicate 12 0⟩, none⟩)], []) := by
    decide +kernel
  obtain ⟨htotal, h⟩ := @no_entry_lost Eytzinger.layout .LE namesImage namesFile (some namesDict)
    "data0".toList ⟨.replicate 12 0⟩ _ [] rfl isArchiveName_data0 (by decide) (conflictFree_namesDict _) hfiles
  obtain ⟨obj, fs, hobj, hfs⟩ := htotal (by decide) (by decide)
  obtain ⟨hcount, hcarried⟩ := h obj fs hobj hfs
  exact ⟨_, obj, fs, hobj, hfs, hcount, (hcarried 0 _ rfl).named _ (by decide +kernel),
    (hcarried 1 _ rfl).named _ (by decide +kernel), ((hcarried 2 _ rfl).hidden (by decide +kernel)).2⟩

end Fsvfs.Dvdbnd
