/-
  Mounting with a cache and without it.

  What is cached of an archive depends on its contents and on the paths of its
  entries (`SameUse`), of which the paths come from the name of the archive and
  from the dictionary.  But it is kept under a hash of the encrypted contents.
  If archives with the same bytes are always used alike, the cache makes no
  difference (`transparent`); if they are not, it may (`not_transparent`).
-/
import Fsvfs.Dvdbnd.Entries
import Fsvfs.Dvdbnd.Finish
import Fsvfs.Dvdbnd.Mount

namespace Fsvfs.Dvdbnd

open Lib Bhd5

/-! ## Loops -/

section
variable {α β γ : Type} {f : α → Option β} {l : List α} {r : List β}

theorem mem_of_mapM (h : l.mapM f = some r) {b : β} : b ∈ r ↔ ∃ a ∈ l, f a = some b := by
  have hmap := map_of_mapM (k := id) (fun _ _ h => h) h
  rw [List.map_id] at hmap
  rw [hmap, List.mem_filterMap]

theorem exists_of_mapM (h : l.mapM f = some r) : ∀ a ∈ l, ∃ b, f a = some b := by
  induction l generalizing r with
  | nil => exact fun a ha => nomatch ha
  | cons a l ih =>
    rw [List.mapM_cons] at h
    obtain ⟨b, hb, h⟩ := Option.bind_eq_some_iff.1 h
    obtain ⟨bs, hbs, -⟩ := Option.bind_eq_some_iff.1 h
    exact List.forall_mem_cons.2 ⟨⟨b, hb⟩, ih hbs⟩

/-- Two loops as one. -/
theorem mapM_of_mapM (h : l.mapM f = some r) (g : β → Option γ) :
    r.mapM g = l.mapM fun a => (f a).bind g := by
  induction l generalizing r with
  | nil =>
    rw [List.mapM_nil] at h
    cases h
    rfl
  | cons a l ih =>
    rw [List.mapM_cons] at h
    obtain ⟨b, hb, h⟩ := Option.bind_eq_some_iff.1 h
    obtain ⟨bs, hbs, h⟩ := Option.bind_eq_some_iff.1 h
    cases h
    rw [List.mapM_cons, List.mapM_cons, hb, ih hbs]
    rfl

end

/-! ## Uses of archives -/

/-- An archive with the dictionary of its mount. -/
abbrev Use := Option Dictionary × BhdFile

namespace Use

/-- What a used archive is processed to. -/
def processed (xxh3 : List UInt8 → BitVec 128) (u : Use) : Option ProcessedBhd :=
  u.2.parse.bind fun bhd => Archive.process u.1 ⟨u.2.path, bhd, u.2.srcId xxh3⟩

/-- What is cached of a used archive. -/
def built (xxh3 : List UInt8 → BitVec 128) (u : Use) : Option DvdbndRofsCached :=
  (u.processed xxh3).bind fun bhd => (RofsObject.new bhd.files).map fun obj => (obj, bhd.store)

/-- The path of an entry of a used archive. -/
def path (u : Use) (d : Decoded) : Str :=
  entryPath (hashesOf u.1 d.u64Hash u.2.path.filePrefix) u.2.path.filePrefix d.pathHash

/-- Two uses that decrypt to the same contents, and give every entry the same
    path. -/
structure SameUse (u u' : Use) : Prop where
  decrypted : u.2.decrypted = u'.2.decrypted
  path : ∀ bhd, u.2.parse = some bhd → ∀ d ∈ bhd.buckets.decoded, u.path d = u'.path d

end Use

/-- The archives of some mounts. -/
def uses (mounts : List Mount) : Set Use := {u | ∃ m ∈ mounts, u.1 = m.dict ∧ u.2 ∈ m.files}

/-- The same bytes are always used alike. -/
def Alike (mounts : List Mount) : Prop :=
  ∀ u ∈ uses mounts, ∀ u' ∈ uses mounts, u.2.bytes = u'.2.bytes → Use.SameUse u u'

/-- The archives of some mounts have no collisions. -/
def CollisionFree (xxh3 : List UInt8 → BitVec 128) (mounts : List Mount) : Prop :=
  ∀ u ∈ uses mounts, ∀ u' ∈ uses mounts, u.2.srcId xxh3 = u'.2.srcId xxh3 → u.2.bytes = u'.2.bytes

theorem processEntries_congr {E : Type} [FileEntry E] {path path' : UInt64 → Str} {srcId : SrcId} :
    ∀ {l : List (E × Option (Ref Encryption))} {store : List UInt8},
      (∀ e ∈ l, path (FileEntry.pathHash e.1) = path' (FileEntry.pathHash e.1)) →
        processEntries path srcId l store = processEntries path' srcId l store
  | [], _, _ => rfl
  | (entry, encryption) :: rest, store, h => by
    obtain ⟨hentry, hrest⟩ := List.forall_mem_cons.1 h
    rw [processEntries, processEntries]
    rcases storeEntry entry encryption store with err | ⟨id, store'⟩
    · rfl
    · show (processEntries path srcId rest store').bind _ = (processEntries path' srcId rest store').bind _
      rw [processEntries_congr hrest, hentry]

/-- What an archive is processed to depends on the paths of its entries. -/
theorem processBhd_congr {dict dict' : Option Dictionary} {bhd : File} {name name' : Str}
    {srcId : SrcId}
    (h : ∀ d ∈ bhd.buckets.decoded, entryPath (hashesOf dict d.u64Hash name) name d.pathHash =
      entryPath (hashesOf dict' d.u64Hash name') name' d.pathHash) :
    processBhd dict bhd name srcId = processBhd dict' bhd name' srcId := by
  have key : ∀ {E : Type} [FileEntry E] (l : List (Ref (List E))),
      (∀ d ∈ decoded l, entryPath (hashesOf dict d.u64Hash name) name d.pathHash =
        entryPath (hashesOf dict' d.u64Hash name') name' d.pathHash) →
      processFiles dict l name srcId bhd.encryption = processFiles dict' l name' srcId bhd.encryption := by
    intro E _ l hl
    refine processEntries_congr fun e he => ?_
    exact hl (Decoded.of e.1) (List.mem_map_of_mem (List.of_mem_zip he).1)
  unfold processBhd
  rcases hb : bhd.buckets with l | l | l | l <;> rw [hb] at h <;> exact key l h

theorem Archive.process_congr {dict dict' : Option Dictionary} {bhd : File} {path path' : BhdPath}
    {srcId : SrcId}
    (h : ∀ d ∈ bhd.buckets.decoded,
      entryPath (hashesOf dict d.u64Hash path.filePrefix) path.filePrefix d.pathHash =
        entryPath (hashesOf dict' d.u64Hash path'.filePrefix) path'.filePrefix d.pathHash) :
    Archive.process dict ⟨path, bhd, srcId⟩ = Archive.process dict' ⟨path', bhd, srcId⟩ := by
  rw [Archive.process, Archive.process, processBhd_congr h]

/-- **Uses that are alike have the same value.** -/
theorem Use.SameUse.built {xxh3 : List UInt8 → BitVec 128} {u u' : Use} (h : SameUse u u')
    (hid : u.2.srcId xxh3 = u'.2.srcId xxh3) : u.built xxh3 = u'.built xxh3 := by
  have hparse : u.2.parse = u'.2.parse := by
    rw [BhdFile.parse, BhdFile.parse, h.decrypted]
  have hprocessed : u.processed xxh3 = u'.processed xxh3 := by
    rw [Use.processed, Use.processed, ← hparse]
    refine Option.bind_congr fun bhd hp => ?_
    rw [← hid]
    exact Archive.process_congr (h.path bhd hp)
  rw [Use.built, Use.built, hprocessed]

theorem coherent_of_alike {xxh3 : List UInt8 → BitVec 128} {mounts : List Mount}
    (halike : Alike mounts) (hfree : CollisionFree xxh3 mounts) :
    Memo.Coherent (fun u : Use => u.2.srcId xxh3) (Use.built xxh3) (uses mounts) := by
  intro u hu u' hu' hid
  exact (halike u hu u' hu' (hfree u hu u' hu' hid)).built hid

/-! ## Building with cached values -/

section
variable {xxh3 : List UInt8 → BitVec 128} {dict : Option Dictionary} {files rest : List BhdFile}
  {cached values : List (SrcId × DvdbndRofsCached)} {b : DvdbndRofsBuilder}
  {processed processed' : List ProcessedBhd} {E : Eytzinger}

/-- The files of a mount as cached values and files that are left, where the
    cached values are those the mount would build. -/
structure Split (xxh3 : List UInt8 → BitVec 128) (dict : Option Dictionary) (files : List BhdFile)
    (cached : List (SrcId × DvdbndRofsCached)) (rest : List BhdFile) : Prop where
  built : ∀ e ∈ cached, ∃ f ∈ files, f.srcId xxh3 = e.1 ∧ Use.built xxh3 (dict, f) = some e.2
  mem : ∀ f ∈ rest, f ∈ files
  all : ∀ f ∈ files, f ∈ rest ∨
    ∃ e ∈ cached, e.1 = f.srcId xxh3 ∧ Use.built xxh3 (dict, f) = some e.2

theorem split_of_retain {cache : Cache} (h : Retain xxh3 cache files cached rest)
    (hhit : ∀ f ∈ files, ∀ v, cache (f.srcId xxh3) = some v → Use.built xxh3 (dict, f) = some v) :
    Split xxh3 dict files cached rest := by
  induction h with
  | nil => exact ⟨fun _ he => (nomatch he), fun _ hf => (nomatch hf), fun _ hf => (nomatch hf)⟩
  | @some file files rest value cached hget _ ih =>
    obtain ⟨hfile, hfiles⟩ := List.forall_mem_cons.1 hhit
    have hs := ih hfiles
    have hbuilt := hfile value hget
    refine ⟨List.forall_mem_cons.2 ⟨⟨file, List.mem_cons_self, rfl, hbuilt⟩, fun e he => ?_⟩,
      fun f hf => List.mem_cons_of_mem file (hs.mem f hf),
      List.forall_mem_cons.2 ⟨.inr ⟨_, List.mem_cons_self, rfl, hbuilt⟩, fun f hf => ?_⟩⟩
    · obtain ⟨f, hf, h⟩ := hs.built e he
      exact ⟨f, List.mem_cons_of_mem file hf, h⟩
    · rcases hs.all f hf with hrest | ⟨e, he, h⟩
      · exact .inl hrest
      · exact .inr ⟨e, List.mem_cons_of_mem _ he, h⟩
  | @none file files rest cached _ ih =>
    have hs := ih (List.forall_mem_cons.1 hhit).2
    refine ⟨fun e he => ?_,
      List.forall_mem_cons.2 ⟨List.mem_cons_self, fun f hf => List.mem_cons_of_mem file (hs.mem f hf)⟩,
      List.forall_mem_cons.2 ⟨.inl List.mem_cons_self, fun f hf => ?_⟩⟩
    · obtain ⟨f, hf, h⟩ := hs.built e he
      exact ⟨f, List.mem_cons_of_mem file hf, h⟩
    · rcases hs.all f hf with hrest | h
      · exact .inl (List.mem_cons_of_mem file hrest)
      · exact .inr h

/-- Without a cache all files are left. -/
theorem split_nil : Split xxh3 dict files [] files :=
  ⟨fun _ he => (nomatch he), fun _ hf => hf, fun _ hf => .inl hf⟩

theorem process_of_builder (hb : builder xxh3 dict cached rest = some b) :
    b.process = rest.mapM fun f => Use.processed xxh3 (dict, f) := by
  obtain ⟨bhds, hbhds, rfl⟩ := Option.map_eq_some_iff.1 hb
  refine (mapM_of_mapM hbhds _).trans (congrArg (fun g => rest.mapM g) (funext fun f => ?_))
  rw [Use.processed]
  rcases f.parse with _ | bhd <;> rfl

theorem cached_of_builder (hb : builder xxh3 dict cached rest = some b) : b.cached = cached := by
  obtain ⟨bhds, -, rfl⟩ := Option.map_eq_some_iff.1 hb
  rfl

theorem exists_builder (h : ∀ f ∈ rest, ∃ p, Use.processed xxh3 (dict, f) = some p) :
    ∃ b, builder xxh3 dict cached rest = some b := by
  obtain ⟨bhds, hbhds⟩ := exists_mapM (l := rest)
    (f := fun file : BhdFile => file.parse.map fun bhd => (file.path, bhd, file.srcId xxh3)) (by
      intro f hf
      obtain ⟨p, hp⟩ := h f hf
      obtain ⟨bhd, hbhd, -⟩ := Option.bind_eq_some_iff.1 hp
      exact ⟨_, by rw [hbhd]; rfl⟩)
  exact ⟨_, by rw [builder, hbhds]; rfl⟩

theorem srcId_of_processed {u : Use} {p : ProcessedBhd} (h : u.processed xxh3 = some p) :
    p.srcId = u.2.srcId xxh3 := by
  obtain ⟨bhd, -, h⟩ := Option.bind_eq_some_iff.1 h
  rw [Archive.process] at h
  split at h
  · cases h
  · cases h
    rfl

variable (hb : builder xxh3 dict cached rest = some b) (hprocess : b.process = some processed)
  (hperm : processed.Perm processed')
include hb hprocess hperm

/-- An archive that is processed. -/
theorem exists_of_mem_processed {p : ProcessedBhd} (hp : p ∈ processed') :
    ∃ f ∈ rest, Use.processed xxh3 (dict, f) = some p := by
  rw [process_of_builder hb] at hprocess
  exact (mem_of_mapM hprocess).1 (hperm.mem_iff.2 hp)

theorem mem_processed {f : BhdFile} (hf : f ∈ rest) :
    ∃ p ∈ processed', Use.processed xxh3 (dict, f) = some p := by
  rw [process_of_builder hb] at hprocess
  obtain ⟨p, hp⟩ := exists_of_mapM hprocess f hf
  exact ⟨p, hperm.mem_iff.1 ((mem_of_mapM hprocess).2 ⟨f, hf, hp⟩), hp⟩

variable (hs : Split xxh3 dict files cached rest)
  (hc : ∀ f ∈ files, ∀ f' ∈ files, f.srcId xxh3 = f'.srcId xxh3 →
    Use.built xxh3 (dict, f) = Use.built xxh3 (dict, f'))
include hs hc

/-- The encryption store of an archive is its own, even if another one has its
    source id. -/
theorem store_eq {f : BhdFile} (hf : f ∈ files) {v : DvdbndRofsCached}
    (hv : Use.built xxh3 (dict, f) = some v) {store : List UInt8}
    (hget : (b.encryptionStore processed').get (f.srcId xxh3) = some store) : store = v.2 := by
  rcases List.mem_append.1 (SrcIdMap.mem_of_get hget) with hmem | hmem
  · rw [cached_of_builder hb] at hmem
    obtain ⟨⟨id, v'⟩, he, hid⟩ := List.mem_map.1 hmem
    obtain rfl : id = f.srcId xxh3 := (Prod.ext_iff.1 hid).1
    obtain rfl : v'.2 = store := (Prod.ext_iff.1 hid).2
    obtain ⟨f', hf', hid', hv'⟩ := hs.built _ he
    rw [hc f hf f' hf' hid'.symm, hv'] at hv
    cases hv
    rfl
  · obtain ⟨p, hp, hid⟩ := List.mem_map.1 hmem
    obtain ⟨f', hf', hp'⟩ := exists_of_mem_processed hb hprocess hperm hp
    have hid' : f.srcId xxh3 = f'.srcId xxh3 := by
      rw [← srcId_of_processed hp', ← (Prod.mk.inj hid).1]
    rw [hc f hf f' (hs.mem f' hf') hid', Use.built, hp'] at hv
    obtain ⟨obj, -, rfl⟩ := Option.map_eq_some_iff.1 hv
    exact (Prod.mk.inj hid).2.symm

/-- **The value that is put in the cache is the one of the archive.** -/
theorem value_eq {f : BhdFile} (hf : f ∈ rest) {p : ProcessedBhd}
    (hp : Use.processed xxh3 (dict, f) = some p) :
    b.value processed' p = (Use.built xxh3 (dict, f)).map fun v => (f.srcId xxh3, v) := by
  obtain ⟨p', hp', hp''⟩ := mem_processed hb hprocess hperm hf
  rw [hp] at hp''
  cases hp''
  rcases hobj : RofsObject.new p.files with _ | obj
  · rw [DvdbndRofsBuilder.value, hobj, Use.built, hp]
    simp [hobj]
  · have hbuilt : Use.built xxh3 (dict, f) = some (obj, p.store) := by
      rw [Use.built, hp]
      simp [hobj]
    have hid := srcId_of_processed hp
    have hmem : (p.srcId, p.store) ∈ (b.cached.map fun e => (e.1, e.2.2)) ++
        processed'.map fun bhd => (bhd.srcId, bhd.store) :=
      List.mem_append_right _ (List.mem_map.2 ⟨p, hp', rfl⟩)
    obtain ⟨store, hstore⟩ := SrcIdMap.get_isSome hmem
    have heq := store_eq hb hprocess hperm hs hc (hs.mem f hf) hbuilt (hid ▸ hstore)
    have hvalue : b.value processed' p = some (p.srcId, obj, store) := by
      rw [DvdbndRofsBuilder.value, hobj, DvdbndRofsBuilder.encryptionStore]
      simp [hstore]
    rw [hvalue, hbuilt, heq, hid]
    rfl

/-- The values of `finish` are those of all archives, whichever of them come
    from the cache. -/
theorem mem_values (hvalues : b.values processed' = some values) (e : SrcId × DvdbndRofsCached) :
    e ∈ b.cached ++ values ↔ ∃ f ∈ files, f.srcId xxh3 = e.1 ∧ Use.built xxh3 (dict, f) = some e.2 := by
  rw [cached_of_builder hb, List.mem_append, mem_of_mapM hvalues]
  constructor
  · rintro (he | ⟨p, hp, he⟩)
    · exact hs.built e he
    · obtain ⟨f, hf, hp'⟩ := exists_of_mem_processed hb hprocess hperm hp
      rw [value_eq hb hprocess hperm hs hc hf hp'] at he
      obtain ⟨v, hv, rfl⟩ := Option.map_eq_some_iff.1 he
      exact ⟨f, hs.mem f hf, rfl, hv⟩
  · rintro ⟨f, hf, hid, hv⟩
    rcases hs.all f hf with hrest | ⟨e', he', hid', hv'⟩
    · obtain ⟨p, hp, hp'⟩ := mem_processed hb hprocess hperm hrest
      refine .inr ⟨p, hp, ?_⟩
      rw [value_eq hb hprocess hperm hs hc hrest hp', hv, hid]
      rfl
    · have heq : e' = e := Prod.ext (hid'.trans hid) (Option.some.inj (hv'.symm.trans hv))
      exact .inl (heq ▸ he')

theorem exists_built (hvalues : b.values processed' = some values) :
    ∀ f ∈ files, ∃ v, Use.built xxh3 (dict, f) = some v := by
  intro f hf
  rcases hs.all f hf with hrest | ⟨e, -, -, hv⟩
  · obtain ⟨p, hp, hp'⟩ := mem_processed hb hprocess hperm hrest
    obtain ⟨e, he⟩ := exists_of_mapM hvalues p hp
    rw [value_eq hb hprocess hperm hs hc hrest hp'] at he
    obtain ⟨v, hv, -⟩ := Option.map_eq_some_iff.1 he
    exact ⟨v, hv⟩
  · exact ⟨_, hv⟩

omit hc in
/-- So are the encryption stores. -/
theorem mem_stores (hbuilt : ∀ f ∈ files, ∃ v, Use.built xxh3 (dict, f) = some v)
    (e : SrcId × List UInt8) :
    e ∈ (b.cached.map fun e => (e.1, e.2.2)) ++ processed'.map (fun bhd => (bhd.srcId, bhd.store)) ↔
      ∃ f ∈ files, f.srcId xxh3 = e.1 ∧ ∃ obj, Use.built xxh3 (dict, f) = some (obj, e.2) := by
  have hstore : ∀ {f p v}, Use.processed xxh3 (dict, f) = some p →
      Use.built xxh3 (dict, f) = some v → v.2 = p.store := by
    intro f p v hp hv
    rw [Use.built, hp] at hv
    obtain ⟨obj, -, rfl⟩ := Option.map_eq_some_iff.1 hv
    rfl
  rw [cached_of_builder hb, List.mem_append, List.mem_map, List.mem_map]
  constructor
  · rintro (⟨e, he, rfl⟩ | ⟨p, hp, rfl⟩)
    · obtain ⟨f, hf, hid, hv⟩ := hs.built e he
      exact ⟨f, hf, hid, _, hv⟩
    · obtain ⟨f, hf, hp'⟩ := exists_of_mem_processed hb hprocess hperm hp
      obtain ⟨v, hv⟩ := hbuilt f (hs.mem f hf)
      refine ⟨f, hs.mem f hf, (srcId_of_processed hp').symm, v.1, ?_⟩
      rw [← hstore hp' hv]
      exact hv
  · rintro ⟨f, hf, hid, obj, hv⟩
    rcases hs.all f hf with hrest | ⟨e', he', hid', hv'⟩
    · obtain ⟨p, hp, hp'⟩ := mem_processed hb hprocess hperm hrest
      exact .inr ⟨p, hp, Prod.ext ((srcId_of_processed hp').trans hid) (hstore hp' hv).symm⟩
    · rw [hv] at hv'
      exact .inl ⟨e', he', Prod.ext (hid'.trans hid) (congrArg Prod.snd (Option.some.inj hv')).symm⟩

omit hb hprocess hperm hs in
theorem functional_of_mem {α : Type} {l : List (SrcId × α)} (g : DvdbndRofsCached → α)
    (h : ∀ e ∈ l, ∃ f ∈ files, f.srcId xxh3 = e.1 ∧
      ∃ v, Use.built xxh3 (dict, f) = some v ∧ g v = e.2) : SrcIdMap.Functional l := by
  intro id x y hx hy
  obtain ⟨f, hf, hid, v, hv, rfl⟩ := h _ hx
  obtain ⟨f', hf', hid', v', hv', rfl⟩ := h _ hy
  rw [hc f hf f' hf' (hid.trans hid'.symm), hv'] at hv
  cases hv
  rfl

end

section
variable {xxh3 : List UInt8 → BitVec 128} {dict : Option Dictionary} {files rest rest' : List BhdFile}
  {cached cached' : List (SrcId × DvdbndRofsCached)} {E : Eytzinger} {fs : DvdbndRofs}

/-- **It does not matter which values come from the cache.** -/
theorem builds_of_split (hs : Split xxh3 dict files cached rest)
    (hs' : Split xxh3 dict files cached' rest')
    (hc : ∀ f ∈ files, ∀ f' ∈ files, f.srcId xxh3 = f'.srcId xxh3 →
      Use.built xxh3 (dict, f) = Use.built xxh3 (dict, f'))
    (h : Builds xxh3 E dict cached rest fs) :
    ∃ fs', Builds xxh3 E dict cached' rest' fs' ∧ fs.Same fs' := by
  obtain ⟨b, values, hb, hfinish⟩ := h
  obtain ⟨hprocess, hperm, hvalues, hobjs, hreduce, hrofs⟩ := hfinish
  rename_i processed processed' objs obj inner
  have hbuilt := exists_built hb hprocess hperm hs hc hvalues
  -- the other files are processed as well
  have hproc : ∀ f ∈ rest', ∃ p, Use.processed xxh3 (dict, f) = some p := by
    intro f hf
    obtain ⟨v, hv⟩ := hbuilt f (hs'.mem f hf)
    obtain ⟨p, hp, -⟩ := Option.bind_eq_some_iff.1 hv
    exact ⟨p, hp⟩
  obtain ⟨b', hb'⟩ : ∃ b', builder xxh3 dict cached' rest' = some b' := exists_builder hproc
  obtain ⟨files', hfiles'⟩ := exists_mapM hproc
  have hprocess' : b'.process = some files' := by rw [process_of_builder hb', hfiles']
  obtain ⟨values', hvalues'⟩ : ∃ values', b'.values files' = some values' := by
    refine exists_mapM fun p hp => ?_
    obtain ⟨f, hf, hp'⟩ := exists_of_mem_processed hb' hprocess' (.refl _) hp
    obtain ⟨v, hv⟩ := hbuilt f (hs'.mem f hf)
    exact ⟨_, by rw [value_eq hb' hprocess' (.refl _) hs' hc hf hp', hv]; rfl⟩
  -- and the objects are the same
  have hmem : ∀ e, e ∈ b.cached ++ values ↔ e ∈ b'.cached ++ values' := fun e => by
    rw [mem_values hb hprocess hperm hs hc hvalues, mem_values hb' hprocess' (.refl _) hs' hc hvalues']
  have hobjects : (b.objects values).Perm (b'.objects values') := by
    refine SrcIdMap.collect_perm (functional_of_mem hc Prod.fst fun e he => ?_) fun e => ?_
    · obtain ⟨e', he', rfl⟩ := List.mem_map.1 he
      obtain ⟨f, hf, hid, hv⟩ := (mem_values hb hprocess hperm hs hc hvalues e').1 he'
      exact ⟨f, hf, hid, _, hv, rfl⟩
    · simp only [List.mem_map, hmem]
  refine ⟨_, ⟨b', values', hb', .finish hprocess' (.refl _) hvalues'
    ((hobjects.map Prod.snd).symm.trans hobjs) hreduce hrofs⟩, rfl, ?_⟩
  refine SrcIdMap.get_collect_congr (functional_of_mem hc Prod.snd fun e he => ?_) fun e => ?_
  · obtain ⟨f, hf, hid, obj, hv⟩ := (mem_stores hb hprocess hperm hs hbuilt e).1 he
    exact ⟨f, hf, hid, _, hv, rfl⟩
  · exact (mem_stores hb hprocess hperm hs hbuilt e).trans
      (mem_stores hb' hprocess' (.refl _) hs' hbuilt e).symm

end

/-! ## Runs -/

section
variable {xxh3 : List UInt8 → BitVec 128} {mounts mounts' : List Mount} {cache : Cache} {m : Mount}
  {cached puts : List (SrcId × DvdbndRofsCached)} {rest : List BhdFile} {E : Eytzinger}
  {fs : DvdbndRofs}

theorem uses_mono (h : mounts ⊆ mounts') : uses mounts ⊆ uses mounts' :=
  fun _ ⟨m, hm, hu⟩ => ⟨m, h hm, hu⟩

theorem mem_uses {f : BhdFile} (hm : m ∈ mounts) (hf : f ∈ m.files) : (m.dict, f) ∈ uses mounts :=
  ⟨m, hm, rfl, hf⟩

theorem Alike.mono (h : Alike mounts') (hsub : mounts ⊆ mounts') : Alike mounts :=
  fun u hu u' hu' => h u (uses_mono hsub hu) u' (uses_mono hsub hu')

theorem CollisionFree.mono (h : CollisionFree xxh3 mounts') (hsub : mounts ⊆ mounts') :
    CollisionFree xxh3 mounts :=
  fun u hu u' hu' => h u (uses_mono hsub hu) u' (uses_mono hsub hu')

/-- What the cache holds after a run: values of archives of the run. -/
abbrev Valid (xxh3 : List UInt8 → BitVec 128) (mounts : List Mount) (cache : Cache) : Prop :=
  Memo.Sound (fun u : Use => u.2.srcId xxh3) (Use.built xxh3) (uses mounts) cache

/-- The split of a mount whose hits are values of archives of the run. -/
theorem Valid.split (hvalid : Valid xxh3 mounts cache) (halike : Alike (m :: mounts))
    (hfree : CollisionFree xxh3 (m :: mounts)) (hretain : Retain xxh3 cache m.files cached rest) :
    Split xxh3 m.dict m.files cached rest := by
  refine split_of_retain hretain fun f hf v hv => ?_
  exact (hvalid.mono (uses_mono (List.subset_cons_self m mounts))).hit
    (coherent_of_alike halike hfree) (mem_uses List.mem_cons_self hf) hv

theorem built_congr_of_alike (halike : Alike (m :: mounts)) (hfree : CollisionFree xxh3 (m :: mounts)) :
    ∀ f ∈ m.files, ∀ f' ∈ m.files, f.srcId xxh3 = f'.srcId xxh3 →
      Use.built xxh3 (m.dict, f) = Use.built xxh3 (m.dict, f') :=
  fun _ hf _ hf' hid => coherent_of_alike halike hfree _ (mem_uses List.mem_cons_self hf) _
    (mem_uses List.mem_cons_self hf') hid

/-- A mount puts values of its archives. -/
theorem valid_step (hvalid : Valid xxh3 mounts cache) (halike : Alike (m :: mounts))
    (hfree : CollisionFree xxh3 (m :: mounts)) (hretain : Retain xxh3 cache m.files cached rest)
    (hputs : Puts xxh3 m.dict cached rest puts) : Valid xxh3 (m :: mounts) (cache.puts puts) := by
  have hs := hvalid.split halike hfree hretain
  refine (hvalid.mono (uses_mono (List.subset_cons_self m mounts))).puts fun e he => ?_
  obtain ⟨b, processed, processed', p, hb, hprocess, hperm, hp, hvalue⟩ := hputs e he
  obtain ⟨f, hf, hp'⟩ := exists_of_mem_processed hb hprocess hperm hp
  rw [value_eq hb hprocess hperm hs (built_congr_of_alike halike hfree) hf hp'] at hvalue
  obtain ⟨v, hv, rfl⟩ := Option.map_eq_some_iff.1 hvalue
  exact ⟨(m.dict, f), mem_uses List.mem_cons_self (hs.mem f hf), rfl, hv⟩

theorem valid_of_run (hrun : Run xxh3 mounts cache) (halike : Alike mounts)
    (hfree : CollisionFree xxh3 mounts) : Valid xxh3 mounts cache := by
  induction hrun with
  | nil => exact Memo.sound_empty
  | @mount mounts cache m cached puts rest _ hretain hputs ih =>
    have hsub : mounts ⊆ m :: mounts := List.subset_cons_self m mounts
    exact valid_step (ih (halike.mono hsub) (hfree.mono hsub)) halike hfree hretain hputs

end

/-- The hash of one image, which is the real one. -/
def namedXxh3 (bytes : List UInt8) : BitVec 128 :=
  if bytes = namedImage then 0x91c21ba4ee79ae5641db52075bff23bb else 0

def namedBhd : BhdFile := ⟨⟨[], "data0.bhd".toList⟩, none, namedImage⟩

def namedMount (dict : Option Dictionary) : Mount := ⟨[namedBhd], dict, List.nodup_singleton _⟩

/-- The one archive, under the path its entry has with a dictionary. -/
def namedProcessed (path : Str) : ProcessedBhd :=
  ⟨[(path, ⟨0, 16, 0, namedBhd.srcId namedXxh3, none⟩)], [], namedBhd.srcId namedXxh3⟩

theorem uses_namedMount {mounts : List Mount} {u : Use} (hm : ∀ m ∈ mounts, m.files = [namedBhd])
    (hu : u ∈ uses mounts) : u.2 = namedBhd := by
  obtain ⟨m, hmem, -, hf⟩ := hu
  rw [hm m hmem] at hf
  exact List.mem_singleton.1 hf

theorem collisionFree_namedMount {mounts : List Mount}
    (hm : ∀ m ∈ mounts, m.files = [namedBhd]) : CollisionFree namedXxh3 mounts := by
  intro u hu u' hu' _
  rw [uses_namedMount hm hu, uses_namedMount hm hu']

/-- The archive is built and put in the cache, and built from it. -/
theorem builds_namedMount (E : Eytzinger) {dict : Option Dictionary} {path : Str}
    (hprocessed : Use.processed namedXxh3 (dict, namedBhd) = some (namedProcessed path))
    (hlen : ∀ c ∈ RofsObject.filePath DvdbndConfig path, c.bytes.length ≤ 255)
    (hsize : pathSize (RofsObject.filePath DvdbndConfig path) ≤ 100) :
    ∃ (obj : DvdbndObject) (inner : Rofs DvdbndConfig DvdbndFile),
      RofsObject.new (namedProcessed path).files = some obj ∧ obj.IntoRofs E inner ∧
      (∃ store, Builds namedXxh3 E dict [] [namedBhd] ⟨inner, store⟩) ∧
      Puts namedXxh3 dict [] [namedBhd] [(namedBhd.srcId namedXxh3, obj, [])] ∧
      ∀ dict', ∃ store,
        Builds namedXxh3 E dict' [(namedBhd.srcId namedXxh3, obj, [])] [] ⟨inner, store⟩ := by
  obtain ⟨obj, inner, hobj, hrofs⟩ := RofsObject.exists_intoRofs DvdbndConfig E
    (namedProcessed path).files (by simp [namedProcessed])
    (by simp [namedProcessed, RofsObject.filesSize]; omega) (by simpa [namedProcessed] using hlen)
  have hbuilt : Use.built namedXxh3 (dict, namedBhd) = some (obj, []) := by
    rw [Use.built, hprocessed, Option.bind_some, hobj]
    rfl
  obtain ⟨b, hb⟩ : ∃ b, builder namedXxh3 dict [] [namedBhd] = some b :=
    exists_builder (List.forall_mem_singleton.2 ⟨_, hprocessed⟩)
  have hprocess : b.process = some [namedProcessed path] := by
    rw [process_of_builder hb, List.mapM_cons, hprocessed]
    rfl
  have hvalue : b.value [namedProcessed path] (namedProcessed path) =
      some (namedBhd.srcId namedXxh3, obj, []) := by
    rw [value_eq hb hprocess (.refl _) split_nil (fun f hf f' hf' _ => by
      rw [List.mem_singleton.1 hf, List.mem_singleton.1 hf']) List.mem_cons_self hprocessed, hbuilt]
    rfl
  have hvalues : b.values [namedProcessed path] = some [(namedBhd.srcId namedXxh3, obj, [])] := by
    rw [DvdbndRofsBuilder.values, List.mapM_cons, hvalue]
    rfl
  refine ⟨obj, inner, hobj, hrofs, ⟨_, b, _, hb, .finish hprocess (.refl _) hvalues ?_ (.item obj) hrofs⟩,
    List.forall_mem_singleton.2 ⟨b, _, _, _, hb, hprocess, .refl _, List.mem_cons_self, hvalue⟩,
    fun dict' => ⟨_, _, _, rfl, .finish rfl (.refl _) rfl (.refl _) (.item obj) hrofs⟩⟩
  rw [DvdbndRofsBuilder.objects, cached_of_builder hb]
  exact .refl _

end Fsvfs.Dvdbnd
