/-
  The mounts that made the values in the cache.

  What is cached of an archive depends on the dictionary and the name that it was
  mounted with.  So every value is kept with its builder.

  * `Filled.madeBy`: a value in the cache was made by its builder;
  * `MadeBy.files`: its files are those of the entries of the archive, under the paths
    that this builder has for them.
-/
import Fsvfs.Dvdbnd.Entries
import Fsvfs.Dvdbnd.Records

namespace Fsvfs.Dvdbnd

open Lib Bhd5

/-- The path of an entry of an archive: the last line of the dictionary with its hash, or
    one that is made of the hash. -/
def DvdbndRofsBuilder.pathOf (builder : DvdbndRofsBuilder) (bhdPath : BhdPath) (d : Decoded) : Str :=
  (dictPath builder.dict bhdPath.filePrefix d).getD (fallbackPath bhdPath.filePrefix d.pathHash)

/-- A value that a builder has put in the cache. -/
structure Put where
  builder : DvdbndRofsBuilder
  entry : SrcId × DvdbndRofsCached

section
variable (bhdOf : SrcId → File)

/-- What some mounts have put in the cache.  A mount may fail after any of its values. -/
inductive Filled : List Put → Prop
  | nil : Filled []
  | mount {puts : List Put} {builder : DvdbndRofsBuilder} {processed files : List ProcessedBhd}
      {values : List (SrcId × DvdbndRofsCached)} :
      Filled puts → Uses bhdOf (puts.map Put.entry) builder → builder.process = some processed →
        processed.Perm files → (∀ e ∈ values, ∃ bhd ∈ files, builder.value files bhd = some e) →
          Filled (puts ++ values.map (Put.mk builder))

/-- A file, with its path, that a builder has made of an entry. -/
structure MadeOf (builder : DvdbndRofsBuilder) (bhdPath : BhdPath) (srcId : SrcId) (store : List UInt8)
    (d : Decoded × Option (Ref Encryption)) (f : Str × DvdbndFile) : Prop where
  path : f.1 = builder.pathOf bhdPath d.1
  srcId : f.2.srcId = srcId
  linked : LinkedTo d.1 d.2 f.2 store

end

section
variable {bhdOf : SrcId → File} {builder : DvdbndRofsBuilder} {puts : List Put}
  {cache values : List (SrcId × DvdbndRofsCached)} {E : Eytzinger} {fs : DvdbndRofs}

/-- **A value in the cache was made by its builder.** -/
theorem Filled.madeBy (h : Filled bhdOf puts) :
    ∀ put ∈ puts, ∃ bhdPath files, MadeBy bhdOf put.builder bhdPath put.entry files := by
  induction h with
  | nil => exact fun put hput => nomatch hput
  | @mount puts builder processed files values _ huses hprocess hperm hvalues ih =>
    intro put hput
    rcases List.mem_append.1 hput with hput | hput
    · exact ih put hput
    · obtain ⟨e, he, rfl⟩ := List.mem_map.1 hput
      obtain ⟨bhd, hbhd, hvalue⟩ := hvalues e he
      have hcached : ∀ e ∈ builder.cached, IsValueOf bhdOf e := by
        intro e he
        obtain ⟨put, hput, rfl⟩ := List.mem_map.1 (huses.cached e he)
        obtain ⟨_, _, hmade⟩ := ih put hput
        exact hmade.isValueOf
      obtain ⟨⟨bhdPath, hmade⟩, -⟩ := madeBy_of_value huses.bhds hcached hprocess hperm hbhd hvalue
      exact ⟨bhdPath, _, hmade⟩

theorem Filled.isValueOf (h : Filled bhdOf puts) (huses : Uses bhdOf (puts.map Put.entry) builder) :
    ∀ e ∈ builder.cached, IsValueOf bhdOf e := by
  intro e he
  obtain ⟨put, hput, rfl⟩ := List.mem_map.1 (huses.cached e he)
  obtain ⟨_, _, hmade⟩ := h.madeBy put hput
  exact hmade.isValueOf

/-- A mount that does not fail puts all of its values. -/
theorem Filled.finish (h : Filled bhdOf puts) (huses : Uses bhdOf (puts.map Put.entry) builder)
    (hfinish : builder.Finish E values fs) : Filled bhdOf (puts ++ values.map (Put.mk builder)) := by
  obtain ⟨hprocess, hperm, hvalues, -, -, -⟩ := hfinish
  exact h.mount huses hprocess hperm fun e he => (mem_of_mapM hvalues).1 he

/-- **Every value that is cached was put by some builder.** -/
theorem Reachable.exists_filled (h : Reachable bhdOf E cache) :
    ∃ puts, Filled bhdOf puts ∧ puts.map Put.entry = cache := by
  induction h with
  | nil => exact ⟨[], .nil, rfl⟩
  | @finish cache values builder fs _ huses hfinish ih =>
    obtain ⟨puts, hfilled, rfl⟩ := ih
    refine ⟨_, hfilled.finish huses hfinish, ?_⟩
    rw [List.map_append, List.map_map]
    exact congrArg _ (List.map_id _)

/-- **The files of a value are those of the entries of its archive**, one for each, under
    the paths that its builder has for them. -/
theorem MadeBy.files {bhdPath : BhdPath} {e : SrcId × DvdbndRofsCached} {files : List (Str × DvdbndFile)}
    (h : MadeBy bhdOf builder bhdPath e files) : List.Forall₂ (MadeOf builder bhdPath e.1 e.2.2)
      ((bhdOf e.1).buckets.decoded.zip (bhdOf e.1).encryption) files := by
  have hok := h.process
  obtain ⟨F, _, l, hdecoded, hprocess⟩ := exists_processFiles (bhdOf e.1)
  rw [hprocess] at hok
  rw [hdecoded, decoded, List.zip_map_left, List.forall₂_map_left_iff]
  refine (processEntries_stored hok).imp fun d f hf => ?_
  obtain ⟨hpath, hsrc, hstored⟩ := hf
  refine ⟨?_, hsrc, hstored.linkedTo⟩
  rw [hpath]
  exact entryPath_eq builder.dict bhdPath.filePrefix (Decoded.of d.1)

/-! ## What a filesystem is made of -/

/-- A value that a filesystem is made of: one of the cache, or one of its own builder. -/
def Merged (puts : List Put) (builder : DvdbndRofsBuilder) (values : List (SrcId × DvdbndRofsCached))
    (put : Put) : Prop :=
  put ∈ puts ∧ put.entry ∈ builder.cached ∨ put.builder = builder ∧ put.entry ∈ values

theorem Merged.mem {put : Put} (h : Merged puts builder values put) : put.entry ∈ builder.cached ++ values :=
  List.mem_append.2 (h.imp And.right And.right)

/-- Every value that is merged was made by some builder. -/
theorem exists_merged (huses : Uses bhdOf (puts.map Put.entry) builder) {e : SrcId × DvdbndRofsCached}
    (he : e ∈ builder.cached ++ values) : ∃ put, Merged puts builder values put ∧ put.entry = e := by
  rcases List.mem_append.1 he with he | he
  · obtain ⟨put, hput, rfl⟩ := List.mem_map.1 (huses.cached e he)
    exact ⟨put, .inl ⟨hput, he⟩, rfl⟩
  · exact ⟨⟨builder, e⟩, .inr ⟨rfl, he⟩, rfl⟩

/-- **A value that is merged was made by its builder**, and its store is kept. -/
theorem Merged.madeBy {put : Put} (h : Merged puts builder values put) (hfilled : Filled bhdOf puts)
    (huses : Uses bhdOf (puts.map Put.entry) builder) (hfinish : builder.Finish E values fs) :
    (∃ bhdPath files, MadeBy bhdOf put.builder bhdPath put.entry files) ∧
      fs.encryptionStore.get put.entry.1 = some put.entry.2.2 := by
  have hcached := hfilled.isValueOf huses
  refine ⟨?_, (store_of_finish huses.bhds hcached hfinish _ h.mem).2⟩
  rcases h with ⟨hput, -⟩ | ⟨rfl, hvalue⟩
  · exact hfilled.madeBy put hput
  · obtain ⟨hprocess, hperm, hvalues, -, -, -⟩ := hfinish
    obtain ⟨bhd, hbhd, heq⟩ := (mem_of_mapM hvalues).1 hvalue
    obtain ⟨⟨bhdPath, hmade⟩, -⟩ := madeBy_of_value huses.bhds hcached hprocess hperm hbhd heq
    exact ⟨bhdPath, _, hmade⟩

/-- An archive that is not cached has a value of its own. -/
theorem exists_merged_of_bhd (hfilled : Filled bhdOf puts) (huses : Uses bhdOf (puts.map Put.entry) builder)
    (hfinish : builder.Finish E values fs) {bhdPath : BhdPath} {bhd : File} {srcId : SrcId}
    (hmem : (bhdPath, bhd, srcId) ∈ builder.bhds) :
    ∃ value files, (srcId, value) ∈ values ∧ MadeBy bhdOf builder bhdPath (srcId, value) files := by
  have hstores := store_of_finish huses.bhds (hfilled.isValueOf huses) hfinish
  obtain rfl : bhd = bhdOf srcId := huses.bhds _ hmem
  obtain ⟨hprocess, hperm, hvalues, -, -, -⟩ := hfinish
  obtain ⟨processed, hb⟩ := exists_of_mapM hprocess _ hmem
  have hprocessed := hperm.mem_iff.1 ((mem_of_mapM hprocess).2 ⟨_, hmem, hb⟩)
  dsimp only at hb
  rcases hok : processBhd builder.dict (bhdOf srcId) bhdPath.filePrefix srcId with err | ⟨files, store⟩
  · rw [hok] at hb
    cases hb
  · rw [hok] at hb
    cases hb
    obtain ⟨e, he⟩ := exists_of_mapM hvalues _ hprocessed
    have hvalue := (mem_of_mapM hvalues).2 ⟨_, hprocessed, he⟩
    obtain ⟨obj, hobj, he⟩ := Option.bind_eq_some_iff.1 he
    obtain ⟨store', -, he⟩ := Option.bind_eq_some_iff.1 he
    cases he
    obtain ⟨⟨_, _, _, hok', -⟩, -⟩ := hstores _ (List.mem_append_right _ hvalue)
    obtain rfl := processBhd_store hok hok'
    exact ⟨_, files, hvalue, hmem, hok, hobj⟩

end

end Fsvfs.Dvdbnd
