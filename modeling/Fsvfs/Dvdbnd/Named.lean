/-
  The names of the files of a filesystem.

  A file has the path that the mount which made its value gives its entry, and it is
  found under the normal form of this path.

  * `exists_of_view`: what is built and merged are files of the archives;
  * `namedBy_of_lookup`: a path leads to a file of an entry that it names, whatever the
    cache holds;
  * `named_and_found`: and every file is found, unless another one is in its way.
-/
import Fsvfs.Dvdbnd.Puts
import Fsvfs.Filesystem.Walk

namespace Fsvfs.Dvdbnd

open Lib Bhd5

/-! ## Objects -/

/-- A file of a built object lies at the normal form of its path. -/
theorem exists_file_of_view {files : List (Str × DvdbndFile)} {obj : DvdbndObject}
    (h : RofsObject.new files = some obj) {p : List Str} {x : Option DvdbndFile}
    (hp : obj.view.kind p = some (.file x)) :
    ∃ f ∈ files, p = norm DvdbndConfig f.1 ∧ x = some f.2 := by
  obtain ⟨i, hi, hx⟩ := RofsObject.view_file_iff.1 hp
  have hmem := ((RofsObject.holds_new h).file _ _).1 hi
  rw [RofsObject.survivors_eq (by decide) RofsObject.caseClosed_dvdbndConfig] at hmem
  obtain ⟨hlt, hpath⟩ := List.mem_zipIdx' (PathTree.mem_survivors hmem)
  rw [List.length_map] at hlt
  obtain ⟨-, -, -, hfiles⟩ := RofsObject.new_eq_some h
  refine ⟨files[i], List.getElem_mem hlt, hpath.trans (List.getElem_map _), ?_⟩
  rw [← hx, hfiles, List.getElem?_map, List.getElem?_eq_getElem hlt]
  rfl

/-- A file of a reduction lies where it does in an object. -/
theorem exists_view_of_reduces {objs : List DvdbndObject} {obj : DvdbndObject}
    (h : Reduces RofsObject.default RofsObject.merge objs obj) {p : List Str} {x : Option DvdbndFile}
    (hp : obj.view.kind p = some (.file x)) : ∃ o ∈ objs, o.view.kind p = some (.file x) := by
  induction h with
  | identity =>
    rw [RofsObject.view_default] at hp
    cases hp
  | item a => exact ⟨a, List.mem_cons_self, hp⟩
  | op _ _ hmerge ihl ihr =>
    rw [RofsObject.view_merge hmerge, PathTree.merge_file_iff] at hp
    rcases hp with hp | ⟨-, hp⟩
    · obtain ⟨o, ho, hop⟩ := ihl hp
      exact ⟨o, List.mem_append_left _ ho, hop⟩
    · obtain ⟨o, ho, hop⟩ := ihr hp
      exact ⟨o, List.mem_append_right _ ho, hop⟩

/-! ## What conflicts keep -/

/-- A reduction has nothing at all, or a root. -/
theorem empty_or_full_of_reduces {objs : List DvdbndObject} {obj : DvdbndObject}
    (h : Reduces RofsObject.default RofsObject.merge objs obj) (hfull : ∀ o ∈ objs, o.view.Full) :
    obj.view = PathTree.empty ∨ obj.view.Full := by
  induction h with
  | identity => exact .inl RofsObject.view_default
  | item a => exact .inr (hfull a List.mem_cons_self)
  | op _ _ hmerge ihl ihr =>
    have hl := ihl fun o ho => hfull o (List.mem_append_left _ ho)
    have hr := ihr fun o ho => hfull o (List.mem_append_right _ ho)
    rw [RofsObject.view_merge hmerge]
    rcases hl with hl | hl
    · rw [hl, PathTree.empty_merge]
      exact hr
    · rcases hr with hr | hr
      · rw [hr, PathTree.merge_empty]
        exact .inr hl
      · exact .inr (PathTree.merge_full hl hr)

/-- A directory is not where all files are compatible. -/
theorem free_of_compatible {t : PathTree Str (Option DvdbndFile)} (hfull : t = PathTree.empty ∨ t.Full)
    {p : List Str} (hne : p ≠ []) (h : ∀ q x, t.kind q = some (.file x) → PathTree.Compatible q p) : t.Free p := by
  rcases hfull with rfl | hfull
  · exact ⟨rfl, fun ⟨_, _, _, hq⟩ => nomatch hq⟩
  · refine ⟨?_, fun ⟨q, x, hqp, hq⟩ => (h q x hq).1 hqp⟩
    rcases hk : t.kind p with _ | _ | x
    · rfl
    · obtain ⟨q, x, hpq, hq⟩ := hfull.file_below p hk hne
      exact absurd hpq (h q x hq).2
    · exact absurd (List.prefix_refl p) (h p x hk).1

/-- **A file stays where no other one conflicts with it.** -/
theorem view_of_reduces {objs : List DvdbndObject} {obj : DvdbndObject}
    (h : Reduces RofsObject.default RofsObject.merge objs obj) (hfull : ∀ o ∈ objs, o.view.Full) {p : List Str}
    (hne : p ≠ []) (hother : ∀ o ∈ objs, ∀ q x, o.view.kind q = some (.file x) → q = p ∨ PathTree.Compatible q p)
    (hown : ∃ o ∈ objs, ∃ x, o.view.kind p = some (.file x)) : ∃ x, obj.view.kind p = some (.file x) := by
  induction h with
  | identity =>
    obtain ⟨_, hmem, -⟩ := hown
    cases hmem
  | item a =>
    obtain ⟨o, ho, hx⟩ := hown
    rwa [List.mem_singleton.1 ho] at hx
  | @op l r a b c hl hr hmerge ihl ihr =>
    have hfulll : ∀ o ∈ l, o.view.Full := fun o ho => hfull o (List.mem_append_left _ ho)
    have hotherl := fun o ho => hother o (List.mem_append_left r ho)
    rw [RofsObject.view_merge hmerge]
    by_cases hleft : ∃ x, a.view.kind p = some (.file x)
    · obtain ⟨x, hx⟩ := hleft
      exact ⟨x, PathTree.merge_of_some hx⟩
    · -- nothing is in the way on the left
      have hfree : a.view.Free p := by
        refine free_of_compatible (empty_or_full_of_reduces hl hfulll) hne fun q x hq => ?_
        obtain ⟨o, ho, hoq⟩ := exists_view_of_reduces hl hq
        refine (hotherl o ho q x hoq).resolve_left ?_
        rintro rfl
        exact hleft ⟨x, hq⟩
      obtain ⟨o, ho, hx⟩ := hown
      have hright : o ∈ r := by
        refine (List.mem_append.1 ho).resolve_left fun ho => ?_
        exact hleft (ihl hfulll hotherl ⟨o, ho, hx⟩)
      obtain ⟨x, hx⟩ := ihr (fun o ho => hfull o (List.mem_append_right _ ho))
        (fun o ho => hother o (List.mem_append_right _ ho)) ⟨o, hright, hx⟩
      exact ⟨x, by rw [PathTree.merge_of_free hfree, hx]⟩

/-- A file of a built object stays likewise. -/
theorem view_of_new {files : List (Str × DvdbndFile)} {obj : DvdbndObject} (h : RofsObject.new files = some obj)
    {f : Str × DvdbndFile} (hf : f ∈ files) (hne : norm DvdbndConfig f.1 ≠ [])
    (hother : ∀ g ∈ files, norm DvdbndConfig g.1 = norm DvdbndConfig f.1 ∨
      PathTree.Compatible (norm DvdbndConfig g.1) (norm DvdbndConfig f.1)) :
    ∃ x, obj.view.kind (norm DvdbndConfig f.1) = some (.file x) := by
  obtain ⟨i, hi, rfl⟩ := List.mem_iff_getElem.1 hf
  have hmem : (norm DvdbndConfig files[i].1, i) ∈ (files.map fun f => norm DvdbndConfig f.1).zipIdx :=
    List.mk_mem_zipIdx_iff_getElem?.2 (by simp [hi])
  have hother' : ∀ g ∈ (files.map fun f => norm DvdbndConfig f.1).zipIdx,
      g.1 = norm DvdbndConfig files[i].1 ∨ PathTree.Compatible g.1 (norm DvdbndConfig files[i].1) := by
    intro g hg
    obtain ⟨f, hf, hgf⟩ := List.mem_map.1 (List.fst_mem_of_mem_zipIdx hg)
    rw [← hgf]
    exact hother f hf
  obtain ⟨⟨p, j⟩, hs, hp⟩ := PathTree.exists_survivor hne hother' ⟨_, hmem, rfl⟩
  have hholds := RofsObject.holds_new h
  rw [RofsObject.survivors_eq (by decide) RofsObject.caseClosed_dvdbndConfig] at hholds
  obtain rfl : p = norm DvdbndConfig files[i].1 := hp
  exact ⟨_, RofsObject.view_file_iff.2 ⟨j, (hholds.file _ _).2 hs, rfl⟩⟩

/-! ## Lookup -/

section
variable (bhdOf : SrcId → File) (puts : List Put) (builder : DvdbndRofsBuilder)
  (values : List (SrcId × DvdbndRofsCached))

/-- A file of an archive of a filesystem, with its path. -/
def IsFileOf (f : Str × DvdbndFile) : Prop :=
  ∃ put bhdPath files, Merged puts builder values put ∧ MadeBy bhdOf put.builder bhdPath put.entry files ∧ f ∈ files

/-- A normal form is that of the path of an entry, in the mount that made the value of
    its archive. -/
def Names (p : List Str) (srcId : SrcId) (d : Decoded) : Prop :=
  ∃ put bhdPath, Merged puts builder values put ∧ put.entry.1 = srcId ∧
    (bhdPath, bhdOf srcId, srcId) ∈ put.builder.bhds ∧ p = norm DvdbndConfig (put.builder.pathOf bhdPath d)

/-- A file is made of an entry that a normal form names. -/
def NamedBy (fs : DvdbndRofs) (p : List Str) (file : DvdbndFile) : Prop :=
  ∃ store, fs.encryptionStore.get file.srcId = some store ∧
    ∃ (F : Type) (_ : FileEntry F) (entry : F) (encryption : Option (Ref Encryption)),
      (Decoded.of entry, encryption) ∈ (bhdOf file.srcId).buckets.decoded.zip (bhdOf file.srcId).encryption ∧
        Names bhdOf puts builder values p file.srcId (Decoded.of entry) ∧ StoredFor entry encryption file store

/-- Another path conflicts with one. -/
def Conflicts (p q : List Str) : Prop := q ≠ p ∧ ¬ PathTree.Compatible q p

/-- The archives of a builder have distinct source ids. -/
def DvdbndRofsBuilder.Distinct : Prop :=
  (builder.cached.map Prod.fst ++ builder.bhds.map fun e => e.2.2).Nodup

end

section
variable {bhdOf : SrcId → File} {puts : List Put} {builder : DvdbndRofsBuilder}
  {values : List (SrcId × DvdbndRofsCached)} {E : Eytzinger} {fs : DvdbndRofs}

/-- The objects that are merged are those of the values. -/
theorem exists_objs_of_finish (hfilled : Filled bhdOf puts) (huses : Uses bhdOf (puts.map Put.entry) builder)
    (hfinish : builder.Finish E values fs) :
    ∃ (objs : List DvdbndObject) (obj : DvdbndObject), ((builder.objects values).map Prod.snd).Perm objs ∧
      Reduces RofsObject.default RofsObject.merge objs obj ∧ obj.IntoRofs E fs.inner ∧
        ∀ o ∈ objs, ∃ put, Merged puts builder values put ∧ put.entry.2.1 = o := by
  obtain ⟨objs, obj, hobjs, hreduce, hinto, hvalues⟩ :=
    exists_values_of_finish huses.bhds (hfilled.isValueOf huses) hfinish
  refine ⟨objs, obj, hobjs, hreduce, hinto, fun o ho => ?_⟩
  obtain ⟨e, he, rfl, -⟩ := hvalues o ho
  obtain ⟨put, hmerged, rfl⟩ := exists_merged huses he
  exact ⟨put, hmerged, rfl⟩

/-- **What a finished filesystem has at a normal form** is a file of an archive whose path
    has this form. -/
theorem exists_of_view (hfilled : Filled bhdOf puts) (huses : Uses bhdOf (puts.map Put.entry) builder)
    (hfinish : builder.Finish E values fs) :
    ∃ obj : DvdbndObject, obj.IntoRofs E fs.inner ∧ ∀ p x, obj.view.kind p = some (.file x) →
      ∃ put bhdPath files f, Merged puts builder values put ∧
        MadeBy bhdOf put.builder bhdPath put.entry files ∧ f ∈ files ∧ p = norm DvdbndConfig f.1 ∧ x = some f.2 := by
  obtain ⟨objs, obj, -, hreduce, hinto, hputs⟩ := exists_objs_of_finish hfilled huses hfinish
  refine ⟨obj, hinto, fun p x hp => ?_⟩
  obtain ⟨o, ho, hop⟩ := exists_view_of_reduces hreduce hp
  obtain ⟨put, hmerged, rfl⟩ := hputs o ho
  obtain ⟨⟨bhdPath, files, hmade⟩, -⟩ := hmerged.madeBy hfilled huses hfinish
  obtain ⟨f, hf, hpath, hx⟩ := exists_file_of_view hmade.new hop
  exact ⟨put, bhdPath, files, f, hmerged, hmade, hf, hpath, hx⟩

/-- So is what a path leads to. -/
theorem exists_file_of_find (hfilled : Filled bhdOf puts) (huses : Uses bhdOf (puts.map Put.entry) builder)
    (hfinish : builder.Finish E values fs) {path : Str} {data : Option DvdbndFile}
    (hfind : fs.inner.find E path = some (.file data)) :
    ∃ put bhdPath files f, Merged puts builder values put ∧ MadeBy bhdOf put.builder bhdPath put.entry files ∧
      f ∈ files ∧ norm DvdbndConfig path = norm DvdbndConfig f.1 ∧ data = some f.2 := by
  obtain ⟨obj, hinto, hview⟩ := exists_of_view hfilled huses hfinish
  rw [hinto.find_eq_norm (by decide) RofsObject.caseClosed_dvdbndConfig] at hfind
  exact hview _ _ hfind

/-- **A path leads to a file of an entry that it names.** -/
theorem namedBy_of_lookup (hfilled : Filled bhdOf puts) (huses : Uses bhdOf (puts.map Put.entry) builder)
    (hfinish : builder.Finish E values fs) {path : Str} {ino : UInt64} {e : Entry DvdbndFile}
    {data : Option DvdbndFile} (hlookup : fs.inner.lookup E path = .ok ino) (he : fs.inner.entry ino = .ok e)
    (hkind : e.kind = .file data) :
    ∃ file, data = some file ∧ NamedBy bhdOf puts builder values fs (norm DvdbndConfig path) file := by
  have hfind : fs.inner.find E path = some (.file data) := by
    rw [Rofs.find, hlookup]
    dsimp only
    rw [he]
    dsimp only
    rw [hkind]
  obtain ⟨put, bhdPath, files, f, hmerged, hmade, hf, hpath, rfl⟩ :=
    exists_file_of_find hfilled huses hfinish hfind
  obtain ⟨-, hstore⟩ := hmerged.madeBy hfilled huses hfinish
  obtain ⟨hsrc, F, _, entry, encryption, hmem, hentry, hstored⟩ := processBhd_path_stored hmade.process f hf
  refine ⟨f.2, rfl, ?_⟩
  rw [NamedBy, hsrc]
  refine ⟨_, hstore, F, _, entry, encryption, hmem, ⟨put, bhdPath, hmerged, rfl, hmade.mem, ?_⟩, hstored⟩
  rw [hpath, hentry]
  exact congrArg _ (entryPath_eq put.builder.dict bhdPath.filePrefix (Decoded.of entry))

/-! ## Archives that get in each other's way -/

/-- The values are those of the archives that are not cached. -/
theorem keys_of_finish (hfinish : builder.Finish E values fs) :
    (values.map Prod.fst).Perm (builder.bhds.map fun e => e.2.2) := by
  obtain ⟨hprocess, hperm, hvalues, -, -, -⟩ := hfinish
  rename_i processed files objs obj inner
  have hkeys : values.map Prod.fst = files.filterMap fun bhd => some bhd.srcId := by
    refine map_of_mapM (fun bhd e he => ?_) hvalues
    obtain ⟨obj, -, he⟩ := Option.bind_eq_some_iff.1 he
    obtain ⟨store, -, he⟩ := Option.bind_eq_some_iff.1 he
    cases he
    rfl
  have hids : processed.map ProcessedBhd.srcId = builder.bhds.filterMap fun e => some e.2.2 := by
    refine map_of_mapM (fun ⟨path, bhd, srcId⟩ b hb => ?_) hprocess
    dsimp only at hb
    rcases hok : processBhd builder.dict bhd path.filePrefix srcId with err | ⟨files', store'⟩
    · rw [hok] at hb
      cases hb
    · rw [hok] at hb
      cases hb
      rfl
  rw [List.filterMap_eq_map'] at hkeys hids
  rw [hkeys, ← hids]
  exact (hperm.map ProcessedBhd.srcId).symm

/-- Archives that are distinct are all merged. -/
theorem Merged.mem_objs {put : Put} (h : Merged puts builder values put) (hfinish : builder.Finish E values fs)
    (hdistinct : builder.Distinct) : put.entry.2.1 ∈ (builder.objects values).map Prod.snd := by
  have hkeys : ((builder.cached ++ values).map Prod.fst).Nodup := by
    rw [List.map_append]
    exact ((keys_of_finish hfinish).append_left _).nodup_iff.2 hdistinct
  refine List.mem_map.2 ⟨(put.entry.1, put.entry.2.1), ?_, rfl⟩
  rw [DvdbndRofsBuilder.objects, SrcIdMap.collect_of_nodup]
  · exact List.mem_map.2 ⟨put.entry, h.mem, rfl⟩
  · rw [List.map_map]
    exact hkeys

/-- **Some file is found where no other one conflicts.** -/
theorem find_of_isFileOf (hfilled : Filled bhdOf puts) (huses : Uses bhdOf (puts.map Put.entry) builder)
    (hfinish : builder.Finish E values fs) (hdistinct : builder.Distinct) {f : Str × DvdbndFile}
    (hf : IsFileOf bhdOf puts builder values f) (hne : norm DvdbndConfig f.1 ≠ [])
    (hconflict : ∀ g, IsFileOf bhdOf puts builder values g →
      ¬ Conflicts (norm DvdbndConfig f.1) (norm DvdbndConfig g.1)) :
    ∃ x, fs.inner.find E f.1 = some (.file x) := by
  have hother : ∀ g, IsFileOf bhdOf puts builder values g → norm DvdbndConfig g.1 = norm DvdbndConfig f.1 ∨
      PathTree.Compatible (norm DvdbndConfig g.1) (norm DvdbndConfig f.1) := by
    intro g hg
    by_contra hneither
    exact hconflict g hg (not_or.1 hneither)
  obtain ⟨objs, obj, hobjs, hreduce, hinto, hputs⟩ := exists_objs_of_finish hfilled huses hfinish
  have hmade : ∀ o ∈ objs, ∃ files, RofsObject.new files = some o ∧
      ∀ g ∈ files, IsFileOf bhdOf puts builder values g := by
    intro o ho
    obtain ⟨put, hmerged, rfl⟩ := hputs o ho
    obtain ⟨⟨bhdPath, files, hmade⟩, -⟩ := hmerged.madeBy hfilled huses hfinish
    exact ⟨files, hmade.new, fun g hg => ⟨put, bhdPath, files, hmerged, hmade, hg⟩⟩
  have hfull : ∀ o ∈ objs, o.view.Full := by
    intro o ho
    obtain ⟨_, hnew, -⟩ := hmade o ho
    exact (RofsObject.holds_new hnew).full.map _
  have hcompat : ∀ o ∈ objs, ∀ q x, o.view.kind q = some (.file x) → q = norm DvdbndConfig f.1 ∨
      PathTree.Compatible q (norm DvdbndConfig f.1) := by
    intro o ho q x hq
    obtain ⟨files, hnew, hfiles⟩ := hmade o ho
    obtain ⟨g, hg, rfl, -⟩ := exists_file_of_view hnew hq
    exact hother g (hfiles g hg)
  -- the object of the archive is one of those that are merged
  obtain ⟨put, bhdPath, files, hmerged, hfiles, hmem⟩ := hf
  have hobj := hobjs.mem_iff.1 (hmerged.mem_objs hfinish hdistinct)
  have hown := view_of_new hfiles.new hmem hne fun g hg => hother g ⟨put, bhdPath, files, hmerged, hfiles, hg⟩
  obtain ⟨x, hx⟩ := view_of_reduces hreduce hfull hne hcompat ⟨_, hobj, hown⟩
  exact ⟨x, by rw [hinto.find_eq_norm (by decide) RofsObject.caseClosed_dvdbndConfig, hx]⟩

/-- What a filesystem has of its archives. -/
structure NamedAndFound (bhdOf : SrcId → File) (E : Eytzinger) (puts : List Put) (builder : DvdbndRofsBuilder)
    (values : List (SrcId × DvdbndRofsCached)) (fs : DvdbndRofs) : Prop where
  /-- every archive has a value -/
  fresh : ∀ bhdPath bhd srcId, (bhdPath, bhd, srcId) ∈ builder.bhds →
    ∃ value files, (srcId, value) ∈ values ∧ MadeBy bhdOf builder bhdPath (srcId, value) files
  merged : ∀ e ∈ builder.cached ++ values, ∃ put bhdPath files, put.entry = e ∧
    Merged puts builder values put ∧ MadeBy bhdOf put.builder bhdPath put.entry files
  /-- every entry has a file, with its record -/
  files : ∀ put bhdPath files, Merged puts builder values put → MadeBy bhdOf put.builder bhdPath put.entry files →
    ∃ store, fs.encryptionStore.get put.entry.1 = some store ∧
      List.Forall₂ (MadeOf put.builder bhdPath put.entry.1 store)
        ((bhdOf put.entry.1).buckets.decoded.zip (bhdOf put.entry.1).encryption) files
  /-- a path leads to a file that has it -/
  leads : ∀ path data, fs.inner.find E path = some (.file data) →
    ∃ f, IsFileOf bhdOf puts builder values f ∧ norm DvdbndConfig path = norm DvdbndConfig f.1 ∧ data = some f.2
  /-- the path of a file leads to it or to another one that has it, or there is a conflict -/
  found : builder.Distinct → ∀ f, IsFileOf bhdOf puts builder values f → norm DvdbndConfig f.1 ≠ [] →
    (∃ g, IsFileOf bhdOf puts builder values g ∧ norm DvdbndConfig f.1 = norm DvdbndConfig g.1 ∧
      fs.inner.find E f.1 = some (.file (some g.2))) ∨
    ∃ g, IsFileOf bhdOf puts builder values g ∧ Conflicts (norm DvdbndConfig f.1) (norm DvdbndConfig g.1)

/-- **Every file of a filesystem is found by the paths of its entry only**, and it is lost
    only to a path that conflicts with its own: whatever the cache holds, and in
    whichever order the archives are merged. -/
theorem named_and_found (hfilled : Filled bhdOf puts) (huses : Uses bhdOf (puts.map Put.entry) builder)
    (hfinish : builder.Finish E values fs) : NamedAndFound bhdOf E puts builder values fs := by
  have hleads : ∀ path data, fs.inner.find E path = some (.file data) → ∃ f, IsFileOf bhdOf puts builder values f ∧
      norm DvdbndConfig path = norm DvdbndConfig f.1 ∧ data = some f.2 := by
    intro path data hfind
    obtain ⟨put, bhdPath, files, f, hmerged, hmade, hf, hpath, hdata⟩ :=
      exists_file_of_find hfilled huses hfinish hfind
    exact ⟨f, ⟨put, bhdPath, files, hmerged, hmade, hf⟩, hpath, hdata⟩
  refine ⟨fun bhdPath bhd srcId hmem => exists_merged_of_bhd hfilled huses hfinish hmem, fun e he => ?_,
    fun put bhdPath files hmerged hmade => ?_, hleads, fun hdistinct f hf hne => ?_⟩
  · obtain ⟨put, hmerged, rfl⟩ := exists_merged huses he
    obtain ⟨⟨bhdPath, files, hmade⟩, -⟩ := hmerged.madeBy hfilled huses hfinish
    exact ⟨put, bhdPath, files, rfl, hmerged, hmade⟩
  · exact ⟨_, (hmerged.madeBy hfilled huses hfinish).2, hmade.files⟩
  · refine Classical.or_iff_not_imp_right.2 fun hnone => ?_
    obtain ⟨x, hx⟩ := find_of_isFileOf hfilled huses hfinish hdistinct hf hne fun g hg hconflict =>
      hnone ⟨g, hg, hconflict⟩
    obtain ⟨g, hg, hpath, rfl⟩ := hleads f.1 x hx
    exact ⟨g, hg, hpath, hx⟩

/-- The value of the one archive of a builder. -/
theorem MadeBy.of_archive {a : Archive} {p : ProcessedBhd} {bhdPath : BhdPath} {e : SrcId × DvdbndRofsCached}
    {files : List (Str × DvdbndFile)} (h : MadeBy bhdOf builder bhdPath e files)
    (hbhds : builder.bhds = [(a.path, a.bhd, a.srcId)]) (hprocess : a.process builder.dict = some p) :
    files = p.files := by
  have hmem := h.mem
  rw [hbhds, List.mem_singleton] at hmem
  obtain ⟨rfl, hentry⟩ := Prod.mk.inj hmem
  obtain ⟨hbhd, hsrc⟩ := Prod.mk.inj hentry
  rw [Archive.process, ← hbhd, ← hsrc, h.process] at hprocess
  cases hprocess
  rfl

end

/-- An archive of two files with names, and one without. -/
def namesArchive : Archive where
  path := ⟨[], "data0.bhd".toList⟩
  bhd := namesFile
  srcId := ⟨.replicate 12 0⟩

/-- An archive of one file, in the way of one of the other archive. -/
def actionArchive : Archive := oneEntry "data1.bhd".toList 0xb0037eed 1

/-- The archives that the two source ids stand for. -/
def namesBhd (srcId : SrcId) : File := if srcId = namesArchive.srcId then namesFile else actionArchive.bhd

def namesFiles : List (Str × DvdbndFile) := [
  ("/action/eventnameid.txt".toList, ⟨0, 16, 0, ⟨.replicate 12 0⟩, none⟩),
  ("/a.txt".toList, ⟨16, 16, 0, ⟨.replicate 12 0⟩, none⟩),
  (".data0/00/00000007".toList, ⟨32, 16, 0, ⟨.replicate 12 0⟩, none⟩)]

def actionFiles : List (Str × DvdbndFile) := [("/action".toList, ⟨0, 16, 0, ⟨.replicate 12 1⟩, none⟩)]

theorem process_namesArchive : namesArchive.process (some namesDict) = some ⟨namesFiles, [], ⟨.replicate 12 0⟩⟩ := by
  decide +kernel

theorem process_actionArchive : actionArchive.process (some namesDict) = some ⟨actionFiles, [], ⟨.replicate 12 1⟩⟩ := by
  decide +kernel

def actionBuilder : DvdbndRofsBuilder :=
  ⟨[(actionArchive.path, actionArchive.bhd, actionArchive.srcId)], some namesDict, []⟩

/-- A builder with the value of the other archive from the cache. -/
def namesBuilder (e : SrcId × DvdbndRofsCached) : DvdbndRofsBuilder :=
  ⟨[(namesArchive.path, namesArchive.bhd, namesArchive.srcId)], some namesDict, [e]⟩

/-- A filesystem of both archives, one of which is cached. -/
theorem exists_namesFilesystem : ∃ (e : SrcId × DvdbndRofsCached) (fs fs' : DvdbndRofs)
    (values : List (SrcId × DvdbndRofsCached)), actionBuilder.Finish Eytzinger.layout [e] fs ∧
      e.1 = actionArchive.srcId ∧ (namesBuilder e).Finish Eytzinger.layout values fs' := by
  obtain ⟨obj, hobj, hcount, hsize⟩ := object_of_files process_namesArchive (by decide) (by decide)
  obtain ⟨obj', hobj', hcount', hsize'⟩ := object_of_files process_actionArchive (by decide) (by decide)
  have hsrc : ([namesArchive, actionArchive].map Archive.srcId).Nodup := by decide
  have hobjs : ∀ a ∈ [namesArchive, actionArchive], ∃ obj, a.object (some namesDict) = some obj := by
    simp [hobj, hobj']
  have hcounts : ([namesArchive, actionArchive].map (Archive.fileCount (some namesDict))).sum ≤ 100 := by
    simp [hcount, hcount', namesFiles, actionFiles]
  have hsizes : ([namesArchive, actionArchive].map (Archive.size (some namesDict))).sum ≤ 200 := by
    have hle := hsize.trans (show _ ≤ 100 by decide)
    have hle' := hsize'.trans (show _ ≤ 100 by decide)
    simp only [List.map_cons, List.map_nil, List.sum_cons, List.sum_nil]
    omega
  obtain ⟨e, fs, values, fs', hfinish, he, -, hfinish'⟩ :=
    exists_finish_cached Eytzinger.layout hsrc hobjs (by omega) (by omega)
  exact ⟨e, fs, fs', values, hfinish, he, hfinish'⟩

/-- All its files. -/
theorem isFileOf_namesBuilder {e : SrcId × DvdbndRofsCached} {fs : DvdbndRofs}
    {values : List (SrcId × DvdbndRofsCached)} (hfilled : Filled namesBhd [Put.mk actionBuilder e])
    (hserves : NamedAndFound namesBhd Eytzinger.layout [Put.mk actionBuilder e] (namesBuilder e) values fs)
    (f : Str × DvdbndFile) :
    IsFileOf namesBhd [Put.mk actionBuilder e] (namesBuilder e) values f ↔ f ∈ namesFiles ++ actionFiles := by
  rw [List.mem_append]
  constructor
  · rintro ⟨put, bhdPath, files, ⟨hput, -⟩ | ⟨hbuilder, -⟩, hmade, hf⟩
    · obtain rfl := List.mem_singleton.1 hput
      obtain rfl := hmade.of_archive rfl process_actionArchive
      exact .inr hf
    · rw [hbuilder] at hmade
      obtain rfl := hmade.of_archive rfl process_namesArchive
      exact .inl hf
  · rintro (hf | hf)
    · obtain ⟨value, files, hvalue, hmade⟩ := hserves.fresh _ _ _ List.mem_cons_self
      obtain rfl := hmade.of_archive rfl process_namesArchive
      exact ⟨⟨namesBuilder e, _⟩, _, _, .inr ⟨rfl, hvalue⟩, hmade, hf⟩
    · obtain ⟨bhdPath, files, hmade⟩ := hfilled.madeBy (Put.mk actionBuilder e) List.mem_cons_self
      obtain rfl := hmade.of_archive rfl process_actionArchive
      exact ⟨Put.mk actionBuilder e, bhdPath, _, .inl ⟨List.mem_cons_self, List.mem_cons_self⟩, hmade, hf⟩

/-- An archive that is cached gets in the way of another one, which keeps its other files. -/
theorem named_and_found_namesArchive : ∃ (puts : List Put) (builder : DvdbndRofsBuilder)
    (values : List (SrcId × DvdbndRofsCached)) (fs : DvdbndRofs),
    Filled namesBhd puts ∧ builder.Finish Eytzinger.layout values fs ∧ builder.Distinct ∧
      builder.cached.length = 1 ∧ NamedAndFound namesBhd Eytzinger.layout puts builder values fs ∧
      fs.inner.find Eytzinger.layout ".data0/00/00000007".toList =
        some (.file (some ⟨32, 16, 0, ⟨.replicate 12 0⟩, none⟩)) ∧
      ∃ f g, IsFileOf namesBhd puts builder values f ∧ IsFileOf namesBhd puts builder values g ∧
        Conflicts (norm DvdbndConfig f.1) (norm DvdbndConfig g.1) := by
  obtain ⟨e, fs, fs', values, hfinish, he, hfinish'⟩ := exists_namesFilesystem
  have hfilled : Filled namesBhd ([] ++ [Put.mk actionBuilder e]) :=
    Filled.nil.finish ⟨fun x hx => by rw [List.mem_singleton.1 hx]; rfl, List.forall_mem_nil _⟩ hfinish
  have huses : Uses namesBhd (([] ++ [Put.mk actionBuilder e]).map Put.entry) (namesBuilder e) :=
    ⟨fun x hx => by rw [List.mem_singleton.1 hx]; rfl, fun e he => he⟩
  have hdistinct : (namesBuilder e).Distinct := by
    show [e.1, namesArchive.srcId].Nodup
    rw [he]
    decide
  have hserves := named_and_found hfilled huses hfinish'
  have hfiles := isFileOf_namesBuilder hfilled hserves
  refine ⟨_, namesBuilder e, values, fs', hfilled, hfinish', hdistinct, rfl, hserves, ?_, ?_⟩
  · have hown : (".data0/00/00000007".toList, ⟨32, 16, 0, ⟨.replicate 12 0⟩, none⟩) ∈ namesFiles ++ actionFiles := by
      decide
    have hothers : ∀ g ∈ namesFiles ++ actionFiles, norm DvdbndConfig ".data0/00/00000007".toList = norm DvdbndConfig g.1 →
        g.2 = ⟨32, 16, 0, ⟨.replicate 12 0⟩, none⟩ := by decide
    have hapart : ∀ g ∈ namesFiles ++ actionFiles,
        ¬ Conflicts (norm DvdbndConfig ".data0/00/00000007".toList) (norm DvdbndConfig g.1) := by
      simp only [Conflicts]
      decide
    rcases hserves.found hdistinct _ ((hfiles _).2 hown) (by decide) with ⟨g, hg, hpath, hfind⟩ | ⟨g, hg, hconflict⟩
    · rw [hothers g ((hfiles g).1 hg) hpath] at hfind
      exact hfind
    · exact absurd hconflict (hapart g ((hfiles g).1 hg))
  · refine ⟨("/action/eventnameid.txt".toList, ⟨0, 16, 0, ⟨.replicate 12 0⟩, none⟩),
      ("/action".toList, ⟨0, 16, 0, ⟨.replicate 12 1⟩, none⟩), (hfiles _).2 (by decide), (hfiles _).2 (by decide), ?_⟩
    rw [Conflicts]
    decide

/-- A builder of the archive with one encrypted file. -/
def encryptedBuilder : DvdbndRofsBuilder :=
  ⟨[(encryptedArchive.path, encryptedArchive.bhd, encryptedArchive.srcId)], none, []⟩

theorem uses_encryptedBuilder : Uses (fun _ => encryptedArchive.bhd) [] encryptedBuilder :=
  ⟨by simp [encryptedBuilder], nofun⟩

/-- Its filesystem. -/
theorem exists_encryptedFilesystem : ∃ (values : List (SrcId × DvdbndRofsCached)) (fs : DvdbndRofs) (ino : UInt64)
    (e : Entry DvdbndFile) (file : DvdbndFile), encryptedBuilder.Finish Eytzinger.layout values fs ∧
        fs.inner.lookup Eytzinger.layout ".data0\\00\\00000007".toList = .ok ino ∧
          fs.inner.entry ino = .ok e ∧ e.kind = .file (some file) := by
  obtain ⟨file, store, hprocess⟩ := process_encryptedArchive
  obtain ⟨obj, hobj, hcount, hsize⟩ := object_of_process hprocess (by decide) (by decide)
  have hnew : RofsObject.new [(".data0/00/00000007".toList, file)] = some obj := by
    rw [Archive.object, hprocess] at hobj
    exact hobj
  have hbuilder : IsBuilder none [encryptedArchive] encryptedBuilder :=
    ⟨rfl, [], [encryptedArchive], .refl _, rfl, .nil⟩
  have hsrc : ([encryptedArchive].map Archive.srcId).Nodup := List.nodup_singleton _
  obtain ⟨values, fs, hfinish⟩ := exists_finish Eytzinger.layout hsrc hbuilder (by simpa using ⟨obj, hobj⟩)
    (by rw [List.map_singleton, List.sum_singleton, hcount]; decide)
    (by rw [List.map_singleton, List.sum_singleton]; omega)
  obtain ⟨objs, obj', hinto, hperm, hunion⟩ :=
    isUnion_of_finish hsrc (List.pairwise_singleton _ _) hbuilder hfinish
  have hfind : fs.inner.find Eytzinger.layout ".data0\\00\\00000007".toList = some (.file (some file)) := by
    have hview : obj'.view.kind [".data0".toList, "00".toList, "00000007".toList] = some (.file (some file)) := by
      refine (hunion.view _ _).2 ⟨obj, hperm.mem_iff.2 (by simpa using hobj), ?_⟩
      have hentries : RofsObject.entries DvdbndConfig [(".data0/00/00000007".toList, file)] =
          [([".data0".toList, "00".toList, "00000007".toList], 0)] := by rfl
      refine RofsObject.view_file_iff.2 ⟨0, ((RofsObject.holds_new hnew).file _ _).2 ?_, ?_⟩
      · rw [hentries]
        decide
      · obtain ⟨-, -, -, hfiles⟩ := RofsObject.new_eq_some hnew
        rw [hfiles]
        rfl
    have hcomponents : components DvdbndConfig (normalizePath DvdbndConfig ".data0\\00\\00000007".toList) =
        [".data0".toList, "00".toList, "00000007".toList] := by decide
    rw [hinto.find_eq, RofsObject.queryTree, hcomponents, hview]
    rfl
  obtain ⟨ino, e, hlookup, he, hkind⟩ := Rofs.exists_of_find hfind
  exact ⟨values, fs, ino, e, file, hfinish, hlookup, he, hkind⟩

end Fsvfs.Dvdbnd
