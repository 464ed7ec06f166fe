/-
  The finished filesystem of archives that do not conflict.

  Merging objects whose files do not meet is their union, however the merges
  are grouped (`view_of_reduces`).  So `finish` gives the same answers whatever
  the order of its maps, and whichever archives come from the cache
  (`find_finish`).
-/
import Fsvfs.Dvdbnd.SrcIdMap
import Fsvfs.Filesystem.Merge

namespace Fsvfs.Dvdbnd

open Lib Bhd5

/-! ## Reducing -/

section
variable {C : Config} {T : Type}

/-- No file of one object meets a file of the other. -/
def Apart (a b : RofsObject C T) : Prop := PathTree.Apart a.view b.view

theorem Apart.symm {a b : RofsObject C T} (h : Apart a b) : Apart b a := PathTree.Apart.symm h

/-- What a reduction has at a path. -/
structure IsUnion (objs : List (RofsObject C T)) (obj : RofsObject C T) : Prop where
  view : ∀ p k, obj.view.kind p = some k ↔ ∃ o ∈ objs, o.view.kind p = some k
  full : objs ≠ [] → obj.view.Full
  files : obj.files.length = (objs.map fun o => o.files.length).sum

/-- **A reduction of objects whose files do not meet is their union.** -/
theorem isUnion_of_reduces {objs : List (RofsObject C T)} {obj : RofsObject C T}
    (h : Reduces RofsObject.default RofsObject.merge objs obj) (hfull : ∀ o ∈ objs, o.view.Full)
    (hapart : objs.Pairwise Apart) : IsUnion objs obj := by
  induction h with
  | identity =>
    refine ⟨fun p k => ?_, fun h => absurd rfl h, rfl⟩
    rw [RofsObject.view_default]
    simp
  | item a =>
    refine ⟨fun p k => ?_, fun _ => hfull a List.mem_cons_self, by simp⟩
    simp
  | @op l r a b c _ _ hc ihl ihr =>
    obtain ⟨hl, hr, hlr⟩ := List.pairwise_append.1 hapart
    have ha := ihl (fun o ho => hfull o (List.mem_append_left r ho)) hl
    have hb := ihr (fun o ho => hfull o (List.mem_append_right l ho)) hr
    have hview := RofsObject.view_merge hc
    have hfiles : c.files.length = ((l ++ r).map fun o => o.files.length).sum := by
      rw [RofsObject.files_merge hc, List.length_append, ha.files, hb.files, List.map_append,
        List.sum_append]
    -- nothing to merge on one side
    have hempty : ∀ {o : RofsObject C T}, IsUnion [] o → o.view = PathTree.empty := by
      intro o ho
      ext1
      funext p
      rcases hk : o.view.kind p with _ | k
      · rfl
      · obtain ⟨_, hmem, -⟩ := (ho.view p k).1 hk
        cases hmem
    rcases l with _ | ⟨o, l⟩
    · rw [hempty ha, PathTree.empty_merge] at hview
      exact ⟨by rw [hview]; exact hb.view, by rw [hview]; exact hb.full, hfiles⟩
    rcases r with _ | ⟨o', r⟩
    · rw [hempty hb, PathTree.merge_empty] at hview
      rw [List.append_nil] at hfiles ⊢
      exact ⟨by rw [hview]; exact ha.view, by rw [hview]; exact ha.full, hfiles⟩
    have hfa := ha.full (by simp)
    have hfb := hb.full (by simp)
    have hab : PathTree.Apart a.view b.view := by
      intro p x q y hp hq
      obtain ⟨m, hm, hmp⟩ := (ha.view _ _).1 hp
      obtain ⟨n, hn, hnq⟩ := (hb.view _ _).1 hq
      exact hlr m hm n hn p x q y hmp hnq
    refine ⟨fun p k => ?_, fun _ => ?_, hfiles⟩
    · rw [hview, PathTree.merge_of_apart hfa hfb hab, ha.view, hb.view]
      simp only [List.mem_append]
      constructor
      · rintro (⟨m, hm, hk⟩ | ⟨m, hm, hk⟩)
        · exact ⟨m, .inl hm, hk⟩
        · exact ⟨m, .inr hm, hk⟩
      · rintro ⟨m, hm | hm, hk⟩
        · exact .inl ⟨m, hm, hk⟩
        · exact .inr ⟨m, hm, hk⟩
    · rw [hview]
      exact PathTree.merge_full hfa hfb

/-- **Two reductions of the same objects have the same views.** -/
theorem IsUnion.view_eq {l r : List (RofsObject C T)} {a b : RofsObject C T} (ha : IsUnion l a)
    (hb : IsUnion r b) (hlr : ∀ o, o ∈ l ↔ o ∈ r) : a.view = b.view := by
  have hiff : ∀ p k, a.view.kind p = some k ↔ b.view.kind p = some k := by
    intro p k
    rw [ha.view, hb.view]
    simp only [hlr]
  ext1
  funext p
  rcases hk : b.view.kind p with _ | k
  · rcases hk' : a.view.kind p with _ | k
    · rfl
    · rw [hiff, hk] at hk'
      cases hk'
  · exact (hiff p k).2 hk

end

/-! ## Archives -/

/-- An archive to be mounted. -/
structure Archive where
  path : BhdPath
  bhd : File
  srcId : SrcId

namespace Archive

/-- What an archive is processed to. -/
def process (dict : Option Dictionary) (a : Archive) : Option ProcessedBhd :=
  match processBhd dict a.bhd a.path.filePrefix a.srcId with
  | .error _ => none
  | .ok (files, store) => some ⟨files, store, a.srcId⟩

/-- The object `new` builds of an archive. -/
def object (dict : Option Dictionary) (a : Archive) : Option DvdbndObject :=
  (a.process dict).bind fun bhd => RofsObject.new bhd.files

/-- The number of files of an archive. -/
def fileCount (dict : Option Dictionary) (a : Archive) : ℕ :=
  ((a.object dict).map fun obj => obj.files.length).getD 0

/-- No surviving path of one archive equals, prefixes or extends one of the
    other. -/
def Unconflicting (dict : Option Dictionary) (a b : Archive) : Prop :=
  ∀ p q, a.process dict = some p → b.process dict = some q →
    ∀ s ∈ RofsObject.survivors DvdbndConfig p.files,
      ∀ t ∈ RofsObject.survivors DvdbndConfig q.files, PathTree.Compatible s.1 t.1

/-- An object of an archive with its source id. -/
def entry (dict : Option Dictionary) (a : Archive) : Option (SrcId × DvdbndObject) :=
  (a.object dict).map fun obj => (a.srcId, obj)

end Archive

/-- A file of a built object lies at a survivor. -/
theorem mem_survivors_of_view {files : List (Str × DvdbndFile)} {obj : DvdbndObject}
    (h : RofsObject.new files = some obj) {p : List Str} {x : Option DvdbndFile}
    (hp : obj.view.kind p = some (.file x)) :
    ∃ s ∈ RofsObject.survivors DvdbndConfig files, s.1 = p := by
  obtain ⟨i, hi, -⟩ := RofsObject.view_file_iff.1 hp
  have hmem := ((RofsObject.holds_new h).file _ _).1 hi
  rw [RofsObject.survivors_eq (by decide) RofsObject.caseClosed_dvdbndConfig] at hmem
  exact ⟨_, hmem, rfl⟩

theorem full_of_object {dict : Option Dictionary} {a : Archive} {obj : DvdbndObject}
    (h : a.object dict = some obj) : obj.view.Full := by
  obtain ⟨p, -, hobj⟩ := Option.bind_eq_some_iff.1 h
  exact (RofsObject.holds_new hobj).full.map _

theorem Archive.Unconflicting.apart {dict : Option Dictionary} {a b : Archive}
    {oa ob : DvdbndObject} (h : a.Unconflicting dict b) (ha : a.object dict = some oa)
    (hb : b.object dict = some ob) : Apart oa ob := by
  obtain ⟨p, hp, hoa⟩ := Option.bind_eq_some_iff.1 ha
  obtain ⟨q, hq, hob⟩ := Option.bind_eq_some_iff.1 hb
  intro r x r' y hr hr'
  obtain ⟨s, hs, rfl⟩ := mem_survivors_of_view hoa hr
  obtain ⟨t, ht, rfl⟩ := mem_survivors_of_view hob hr'
  exact h p q hp hq s hs t ht

/-- The builder of some archives, each of them to be processed or cached. -/
structure IsBuilder (dict : Option Dictionary) (archives : List Archive)
    (builder : DvdbndRofsBuilder) : Prop where
  dict_eq : builder.dict = dict
  split : ∃ cached fresh : List Archive, (cached ++ fresh).Perm archives ∧
    builder.bhds = fresh.map (fun a => (a.path, a.bhd, a.srcId)) ∧
    List.Forall₂ (fun a e => e.1 = a.srcId ∧ a.object dict = some e.2.1) cached builder.cached

/-! ## Maps -/

/-- What a loop that does not fail makes of its items. -/
theorem map_of_mapM {α β γ : Type} {f : α → Option β} {g : α → Option γ} {k : β → γ}
    (hg : ∀ a b, f a = some b → g a = some (k b)) :
    ∀ {l : List α} {r : List β}, l.mapM f = some r → r.map k = l.filterMap g
  | [], r, h => by
    rw [List.mapM_nil] at h
    cases h
    rfl
  | a :: l, r, h => by
    rw [List.mapM_cons] at h
    obtain ⟨b, hb, h⟩ := Option.bind_eq_some_iff.1 h
    obtain ⟨bs, hbs, h⟩ := Option.bind_eq_some_iff.1 h
    cases h
    rw [List.map_cons, List.filterMap_cons, hg a b hb, map_of_mapM hg hbs]

/-! ## Finishing -/

section
variable {dict : Option Dictionary} {archives : List Archive} {builder : DvdbndRofsBuilder}
  {processed files : List ProcessedBhd} {values : List (SrcId × DvdbndRofsCached)}

/-- An object that has been built, with its source id. -/
def ProcessedBhd.entry (bhd : ProcessedBhd) : Option (SrcId × DvdbndObject) :=
  (RofsObject.new bhd.files).map fun obj => (bhd.srcId, obj)

theorem entry_of_process {a : Archive} :
    (a.process dict).bind ProcessedBhd.entry = a.entry dict := by
  unfold Archive.entry Archive.object Archive.process
  rcases processBhd dict a.bhd a.path.filePrefix a.srcId with err | ⟨files, store⟩
  · rfl
  · rfl

theorem values_entry (h : builder.values files = some values) :
    (values.map fun e => (e.1, e.2.1)) = files.filterMap ProcessedBhd.entry := by
  refine map_of_mapM (fun bhd e he => ?_) h
  obtain ⟨obj, hobj, he⟩ := Option.bind_eq_some_iff.1 he
  obtain ⟨store, -, he⟩ := Option.bind_eq_some_iff.1 he
  cases he
  rw [ProcessedBhd.entry, hobj]
  rfl

theorem cached_entry {cached : List Archive} {l : List (SrcId × DvdbndRofsCached)}
    (h : List.Forall₂ (fun a e => e.1 = a.srcId ∧ a.object dict = some e.2.1) cached l) :
    (l.map fun e => (e.1, e.2.1)) = cached.filterMap (Archive.entry dict) := by
  induction h with
  | nil => rfl
  | cons h _ ih =>
    rw [List.map_cons, List.filterMap_cons, Archive.entry, h.2, ih, h.1]
    rfl

theorem processed_eq {fresh : List Archive}
    (hbhds : builder.bhds = fresh.map fun a => (a.path, a.bhd, a.srcId))
    (process : builder.process = some processed) :
    processed = fresh.filterMap (Archive.process builder.dict) := by
  rw [DvdbndRofsBuilder.process, hbhds] at process
  have := map_of_mapM (k := id) (fun _ _ h => h) process
  rw [List.map_id] at this
  rw [this, List.filterMap_map]
  rfl

/-- **The objects of `finish` are those of the archives**, from the cache or
    not, if the source ids differ. -/
theorem objects_perm (hsrc : (archives.map Archive.srcId).Nodup)
    (hbuilder : IsBuilder dict archives builder) (process : builder.process = some processed)
    (files_perm : processed.Perm files) (values_eq : builder.values files = some values) :
    (builder.objects values).Perm (archives.filterMap (Archive.entry dict)) := by
  obtain ⟨cached, fresh, hperm, hbhds, hcached⟩ := hbuilder.split
  have hprocessed := processed_eq hbhds process
  rw [hbuilder.dict_eq] at hprocessed
  have hfresh : (values.map fun e => (e.1, e.2.1)).Perm (fresh.filterMap (Archive.entry dict)) := by
    rw [values_entry values_eq]
    refine (files_perm.symm.filterMap _).trans (.of_eq ?_)
    rw [hprocessed, List.filterMap_filterMap]
    exact List.filterMap_congr fun a _ => entry_of_process
  have hall : ((builder.cached ++ values).map fun e => (e.1, e.2.1)).Perm
      (archives.filterMap (Archive.entry dict)) := by
    rw [List.map_append, cached_entry hcached]
    refine (hfresh.append_left _).trans ?_
    rw [← List.filterMap_append]
    exact hperm.filterMap _
  have hkeys : ((archives.filterMap (Archive.entry dict)).map Prod.fst).Nodup := by
    refine List.Sublist.nodup ?_ hsrc
    clear hsrc hbuilder hperm hall
    induction archives with
    | nil => exact .slnil
    | cons a archives ih =>
      rw [List.filterMap_cons, Archive.entry]
      rcases a.object dict with _ | obj
      · exact ih.cons _
      · exact ih.cons_cons _
  have hcollect : builder.objects values = (builder.cached ++ values).map fun e => (e.1, e.2.1) :=
    SrcIdMap.collect_of_nodup ((hall.map Prod.fst).nodup_iff.2 hkeys)
  rw [hcollect]
  exact hall

theorem map_entry :
    (archives.filterMap (Archive.entry dict)).map Prod.snd = archives.filterMap (Archive.object dict) := by
  rw [List.map_filterMap]
  refine List.filterMap_congr fun a _ => ?_
  rw [Archive.entry]
  rcases a.object dict with _ | o <;> rfl

/-- **A finished filesystem is the union of its archives**, if they do not
    conflict. -/
theorem isUnion_of_finish {E : Eytzinger} {fs : DvdbndRofs}
    (hsrc : (archives.map Archive.srcId).Nodup)
    (hconflict : archives.Pairwise (Archive.Unconflicting dict))
    (hbuilder : IsBuilder dict archives builder) (hfinish : builder.Finish E values fs) :
    ∃ (objs : List DvdbndObject) (obj : DvdbndObject), obj.IntoRofs E fs.inner ∧
      objs.Perm (archives.filterMap (Archive.object dict)) ∧ IsUnion objs obj := by
  obtain ⟨process, files_perm, values_eq, objs_perm, reduce, into_rofs⟩ := hfinish
  rename_i objs obj inner
  have hperm : objs.Perm (archives.filterMap (Archive.object dict)) := by
    have h := (objects_perm hsrc hbuilder process files_perm values_eq).map Prod.snd
    rw [map_entry] at h
    exact objs_perm.symm.trans h
  refine ⟨objs, obj, into_rofs, hperm, isUnion_of_reduces reduce (fun o ho => ?_) ?_⟩
  · obtain ⟨a, -, ha⟩ := List.mem_filterMap.1 (hperm.mem_iff.1 ho)
    exact full_of_object ha
  · refine (hperm.pairwise_iff fun h => h.symm).2 ?_
    exact List.Pairwise.filterMap _ (fun a b h oa ha ob hb => h.apart ha hb) hconflict

end

/-! ## Totality -/

/-- The bytes of the names of an archive, with their length bytes. -/
def Archive.size (dict : Option Dictionary) (a : Archive) : ℕ :=
  ((a.object dict).map RofsObject.size).getD 0

theorem exists_mapM {α β : Type} {f : α → Option β} {l : List α}
    (h : ∀ a ∈ l, ∃ b, f a = some b) : ∃ r, l.mapM f = some r := by
  induction l with
  | nil => exact ⟨[], rfl⟩
  | cons a l ih =>
    obtain ⟨⟨b, hb⟩, h⟩ := List.forall_mem_cons.1 h
    obtain ⟨r, hr⟩ := ih h
    exact ⟨b :: r, by rw [List.mapM_cons, hb, hr]; rfl⟩

/-- Objects with few files can be reduced. -/
theorem exists_reduces {C : Config} {T : Type} (objs : List (RofsObject C T))
    (h : (objs.map fun o => o.files.length).sum < 2 ^ 32) :
    ∃ obj, Reduces RofsObject.default RofsObject.merge objs obj ∧
      obj.files.length = (objs.map fun o => o.files.length).sum ∧
      obj.size ≤ (objs.map RofsObject.size).sum := by
  induction objs with
  | nil => exact ⟨_, .identity, rfl, Nat.le_refl _⟩
  | cons o objs ih =>
    rw [List.map_cons, List.sum_cons] at h
    obtain ⟨obj, hred, hfiles, hsize⟩ := ih (by omega)
    obtain ⟨c, hc⟩ := RofsObject.merge_isSome (a := o) (b := obj) (by omega)
    have hcsize := RofsObject.size_merge hc
    refine ⟨c, .op (.item o) hred hc, ?_, ?_⟩
    · rw [RofsObject.files_merge hc, List.length_append, hfiles, List.map_cons, List.sum_cons]
    · rw [List.map_cons, List.sum_cons]
      omega

theorem sum_filterMap {dict : Option Dictionary} (f : DvdbndObject → ℕ) (archives : List Archive) :
    ((archives.filterMap (Archive.object dict)).map f).sum =
      (archives.map fun a => ((a.object dict).map f).getD 0).sum := by
  induction archives with
  | nil => rfl
  | cons a archives ih =>
    rw [List.filterMap_cons, List.map_cons, List.sum_cons]
    rcases a.object dict with _ | o
    · simpa using ih
    · simp [ih]

/-- **`finish` succeeds** on archives with few files and short names. -/
theorem exists_finish (E : Eytzinger) {dict : Option Dictionary} {archives : List Archive}
    {builder : DvdbndRofsBuilder} (hsrc : (archives.map Archive.srcId).Nodup)
    (hbuilder : IsBuilder dict archives builder)
    (hobj : ∀ a ∈ archives, ∃ obj, a.object dict = some obj)
    (hcount : (archives.map (Archive.fileCount dict)).sum < 2 ^ 32)
    (hsize : (archives.map (Archive.size dict)).sum + 1 < 2 ^ 32) :
    ∃ values fs, builder.Finish E values fs := by
  obtain ⟨cached, fresh, hperm, hbhds, hcached⟩ := hbuilder.split
  have hfresh : ∀ a ∈ fresh, ∃ (p : ProcessedBhd) (obj : DvdbndObject),
      a.process dict = some p ∧ RofsObject.new p.files = some obj := by
    intro a ha
    obtain ⟨obj, h⟩ := hobj a (hperm.mem_iff.1 (List.mem_append_right cached ha))
    obtain ⟨p, hp, hnew⟩ := Option.bind_eq_some_iff.1 h
    exact ⟨p, obj, hp, hnew⟩
  obtain ⟨processed, hprocess⟩ : ∃ processed, builder.process = some processed := by
    rw [DvdbndRofsBuilder.process, hbhds, hbuilder.dict_eq]
    refine exists_mapM fun e he => ?_
    obtain ⟨a, ha, rfl⟩ := List.mem_map.1 he
    obtain ⟨p, -, hp, -⟩ := hfresh a ha
    exact ⟨p, hp⟩
  have hprocessed := processed_eq hbhds hprocess
  rw [hbuilder.dict_eq] at hprocessed
  obtain ⟨values, hvalues⟩ : ∃ values, builder.values processed = some values := by
    refine exists_mapM fun p hp => ?_
    have hmem : (p.srcId, p.store) ∈ (builder.cached.map fun e => (e.1, e.2.2)) ++
        processed.map fun bhd => (bhd.srcId, bhd.store) :=
      List.mem_append_right _ (List.mem_map.2 ⟨p, hp, rfl⟩)
    obtain ⟨store, hstore⟩ := SrcIdMap.get_isSome hmem
    rw [hprocessed] at hp
    obtain ⟨a, ha, hap⟩ := List.mem_filterMap.1 hp
    obtain ⟨p', obj, hp', hnew⟩ := hfresh a ha
    rw [hap] at hp'
    cases hp'
    exact ⟨(p.srcId, obj, store), by rw [DvdbndRofsBuilder.value, hnew, DvdbndRofsBuilder.encryptionStore]; simp [hstore]⟩
  have hobjs := (objects_perm hsrc hbuilder hprocess (.refl _) hvalues).map Prod.snd
  rw [map_entry] at hobjs
  have hsum : ∀ f : DvdbndObject → ℕ, (((builder.objects values).map Prod.snd).map f).sum =
      (archives.map fun a => ((a.object dict).map f).getD 0).sum := fun f => by
    rw [(hobjs.map f).sum_nat, sum_filterMap]
  obtain ⟨obj, hred, -, hle⟩ := exists_reduces ((builder.objects values).map Prod.snd) (by
    rw [hsum]
    exact hcount)
  rw [hsum] at hle
  obtain ⟨fs, hfs⟩ := RofsObject.exists_intoRofs_of_size E obj (Nat.lt_of_le_of_lt
    (Nat.add_le_add_right hle 1) hsize)
  exact ⟨values, _, .finish hprocess (.refl _) hvalues (.refl _) hred hfs⟩

/-- **An archive that was mounted comes from the cache**, in the next mount. -/
theorem exists_finish_cached (E : Eytzinger) {dict : Option Dictionary} {a a' : Archive}
    (hsrc : ([a, a'].map Archive.srcId).Nodup) (hobj : ∀ x ∈ [a, a'], ∃ obj, x.object dict = some obj)
    (hcount : ([a, a'].map (Archive.fileCount dict)).sum < 2 ^ 32)
    (hsize : ([a, a'].map (Archive.size dict)).sum + 1 < 2 ^ 32) :
    ∃ e fs values' fs', (⟨[(a'.path, a'.bhd, a'.srcId)], dict, []⟩ : DvdbndRofsBuilder).Finish E [e] fs ∧
      e.1 = a'.srcId ∧ IsBuilder dict [a, a'] ⟨[(a.path, a.bhd, a.srcId)], dict, [e]⟩ ∧
        (⟨[(a.path, a.bhd, a.srcId)], dict, [e]⟩ : DvdbndRofsBuilder).Finish E values' fs' := by
  obtain ⟨obj', hobj'⟩ := hobj a' (by simp)
  have hbuilder : IsBuilder dict [a'] ⟨[(a'.path, a'.bhd, a'.srcId)], dict, []⟩ :=
    ⟨rfl, [], [a'], .refl _, rfl, .nil⟩
  simp only [List.map_cons, List.map_nil, List.sum_cons, List.sum_nil] at hcount hsize
  obtain ⟨values, fs, hfinish⟩ := @exists_finish E _ [a'] _ (List.nodup_singleton _) hbuilder
    (List.forall_mem_singleton.2 ⟨obj', hobj'⟩)
    (by simp only [List.map_cons, List.map_nil, List.sum_cons, List.sum_nil]; omega)
    (by simp only [List.map_cons, List.map_nil, List.sum_cons, List.sum_nil]; omega)
  -- its one value is that of the archive
  obtain ⟨e, rfl, he, hobject⟩ : ∃ e, values = [e] ∧ e.1 = a'.srcId ∧ a'.object dict = some e.2.1 := by
    obtain ⟨hprocess, hperm, hvalues, -, -, -⟩ := id hfinish
    rename_i processed files _ _ _
    obtain ⟨p, hp, hnew⟩ := Option.bind_eq_some_iff.1 hobj'
    obtain rfl : processed = [p] := by
      have hprocessed := @processed_eq _ _ [a'] rfl hprocess
      rwa [List.filterMap_cons, hp] at hprocessed
    obtain rfl : files = [p] := List.perm_singleton.1 hperm.symm
    have hentries := values_entry hvalues
    have hentry : p.entry = a'.entry dict := by
      rw [← entry_of_process, hp]
      rfl
    rw [List.filterMap_cons, hentry, Archive.entry, hobj'] at hentries
    obtain ⟨e, rfl, heq⟩ := List.map_eq_singleton_iff.1 hentries
    obtain ⟨hid, hobject⟩ := Prod.mk.inj heq
    exact ⟨e, rfl, hid, by rw [hobject, hobj']⟩
  have hbuilder' : IsBuilder dict [a, a'] ⟨[(a.path, a.bhd, a.srcId)], dict, [e]⟩ :=
    ⟨rfl, [a'], [a], .swap _ _ _, rfl, .cons ⟨he, hobject⟩ .nil⟩
  obtain ⟨values', fs', hfinish'⟩ := exists_finish E hsrc hbuilder' hobj
    (by simpa only [List.map_cons, List.map_nil, List.sum_cons, List.sum_nil] using hcount)
    (by simpa only [List.map_cons, List.map_nil, List.sum_cons, List.sum_nil] using hsize)
  exact ⟨e, fs, values', fs', hfinish, he, hbuilder', hfinish'⟩

/-- **The finished filesystem does not depend on the processing order**, nor on
    which archives come from the cache, if the archives do not conflict. -/
theorem find_finish {E : Eytzinger} {dict : Option Dictionary} {archives : List Archive}
    (hsrc : (archives.map Archive.srcId).Nodup)
    (hconflict : archives.Pairwise (Archive.Unconflicting dict)) {b b' : DvdbndRofsBuilder}
    {values values' : List (SrcId × DvdbndRofsCached)} {fs fs' : DvdbndRofs}
    (hb : IsBuilder dict archives b) (hb' : IsBuilder dict archives b')
    (h : b.Finish E values fs) (h' : b'.Finish E values' fs') :
    (∀ path, fs.inner.find E path = fs'.inner.find E path) ∧
      fs.inner.fileCount = (archives.map (Archive.fileCount dict)).sum := by
  obtain ⟨objs, obj, hobj, hperm, hunion⟩ := isUnion_of_finish hsrc hconflict hb h
  obtain ⟨objs', obj', hobj', hperm', hunion'⟩ := isUnion_of_finish hsrc hconflict hb' h'
  have hview : obj.view = obj'.view := hunion.view_eq hunion' fun o => by
    rw [hperm.mem_iff, hperm'.mem_iff]
  refine ⟨fun path => ?_, ?_⟩
  · rw [hobj.find_eq, hobj'.find_eq, hview]
  · obtain ⟨hfiles, -⟩ := hobj.flattened
    rw [Rofs.fileCount, hfiles, hunion.files, (hperm.map _).sum_nat, sum_filterMap]
    rfl

/-- An archive with one entry of a hash. -/
def oneEntry (fileName : Str) (hash : UInt32) (id : UInt8) : Archive where
  path := ⟨[], fileName⟩
  bhd :=
    { format := .DarkSouls
      buckets := .DarkSouls [⟨32, [⟨hash, 16, 0⟩]⟩]
      encryption := [none]
      salt := none }
  srcId := ⟨.replicate 12 id⟩

/-- An archive of a few files with short paths is built. -/
theorem object_of_files {dict : Option Dictionary} {a : Archive} {files : List (Str × DvdbndFile)}
    {store : List UInt8} {srcId : SrcId} (hprocess : a.process dict = some ⟨files, store, srcId⟩)
    (hcount : files.length < 2 ^ 32)
    (hlen : ∀ f ∈ files, ∀ c ∈ RofsObject.filePath DvdbndConfig f.1, c.bytes.length ≤ 255) :
    ∃ obj, a.object dict = some obj ∧ a.fileCount dict = files.length ∧
      a.size dict ≤ RofsObject.filesSize DvdbndConfig files := by
  obtain ⟨obj, b, hobj, hb, hle⟩ := RofsObject.new_isSome (C := DvdbndConfig) files hcount hlen
  obtain ⟨-, -, -, hfiles⟩ := RofsObject.new_eq_some hobj
  have hobject : a.object dict = some obj := by
    rw [Archive.object, hprocess]
    exact hobj
  refine ⟨obj, hobject, ?_, ?_⟩
  · rw [Archive.fileCount, hobject, Option.map_some, Option.getD_some, hfiles, List.length_map]
  · rw [Archive.size, hobject, Option.map_some, Option.getD_some, RofsObject.size_of_branch hb]
    exact hle

/-- An archive of one file with a short path is built. -/
theorem object_of_process {dict : Option Dictionary} {a : Archive} {path : Str} {file : DvdbndFile}
    {store : List UInt8} {srcId : SrcId} (hprocess : a.process dict = some ⟨[(path, file)], store, srcId⟩)
    (hlen : ∀ c ∈ RofsObject.filePath DvdbndConfig path, c.bytes.length ≤ 255)
    (hsize : pathSize (RofsObject.filePath DvdbndConfig path) ≤ 100) :
    ∃ obj, a.object dict = some obj ∧ a.fileCount dict = 1 ∧ a.size dict ≤ 100 := by
  obtain ⟨obj, hobj, hcount, hle⟩ := object_of_files hprocess (by simp) (List.forall_mem_singleton.2 hlen)
  refine ⟨obj, hobj, hcount, hle.trans ?_⟩
  simpa [RofsObject.filesSize] using hsize

/-- Two archives, both processed afresh or one of them cached. -/
theorem find_finish_two : ∃ (b b' : DvdbndRofsBuilder) (values values' : List (SrcId × DvdbndRofsCached))
    (fs fs' : DvdbndRofs), b.cached = [] ∧ b'.cached ≠ [] ∧
      b.Finish Eytzinger.layout values fs ∧ b'.Finish Eytzinger.layout values' fs' ∧
      (∀ path, fs.inner.find Eytzinger.layout path = fs'.inner.find Eytzinger.layout path) ∧
      fs.inner.fileCount = 2 := by
  set a := oneEntry "data0.bhd".toList 7 0
  set a' := oneEntry "data1.bhd".toList 7 1
  have hprocess : a.process none = some ⟨[(".data0/00/00000007".toList,
    ⟨0, 16, 0, ⟨.replicate 12 0⟩, none⟩)], [], ⟨.replicate 12 0⟩⟩ := by rfl
  have hprocess' : a'.process none = some ⟨[(".data1/00/00000007".toList,
    ⟨0, 16, 0, ⟨.replicate 12 1⟩, none⟩)], [], ⟨.replicate 12 1⟩⟩ := by rfl
  obtain ⟨obj, hobj, hcount, hsize⟩ : ∃ obj, a.object none = some obj ∧ a.fileCount none = 1 ∧
    a.size none ≤ 100 := object_of_process hprocess (by decide) (by decide)
  obtain ⟨obj', hobj', hcount', hsize'⟩ : ∃ obj, a'.object none = some obj ∧
    a'.fileCount none = 1 ∧ a'.size none ≤ 100 := object_of_process hprocess' (by decide) (by decide)
  have hsrc : ([a, a'].map Archive.srcId).Nodup := by decide
  have hconflict : [a, a'].Pairwise (Archive.Unconflicting none) := by
    rw [List.pairwise_pair]
    intro p q hp hq
    rw [hprocess] at hp
    rw [hprocess'] at hq
    cases hp
    cases hq
    decide
  have hobjs : ∀ x ∈ [a, a'], ∃ obj, x.object none = some obj := by
    simp [hobj, hobj']
  have hb : IsBuilder none [a, a'] ⟨[(a.path, a.bhd, a.srcId), (a'.path, a'.bhd, a'.srcId)], none, []⟩ :=
    ⟨rfl, [], [a, a'], .refl _, rfl, .nil⟩
  have hb' : IsBuilder none [a, a'] ⟨[(a.path, a.bhd, a.srcId)], none, [(a'.srcId, obj', [])]⟩ :=
    ⟨rfl, [a'], [a], .swap _ _ _, rfl, .cons ⟨rfl, hobj'⟩ .nil⟩
  have hcounts : ([a, a'].map (Archive.fileCount none)).sum = 2 := by simp [hcount, hcount']
  have hsizes : ([a, a'].map (Archive.size none)).sum ≤ 200 := by
    simp only [List.map_cons, List.map_nil, List.sum_cons, List.sum_nil]
    omega
  obtain ⟨values, fs, h⟩ := exists_finish Eytzinger.layout hsrc hb hobjs (by omega) (by omega)
  obtain ⟨values', fs', h'⟩ := exists_finish Eytzinger.layout hsrc hb' hobjs (by omega) (by omega)
  obtain ⟨hfind, hfiles⟩ := find_finish hsrc hconflict hb hb' h h'
  exact ⟨_, _, values, values', fs, fs', rfl, by simp, h, h', hfind, hfiles.trans hcounts⟩

end Fsvfs.Dvdbnd
