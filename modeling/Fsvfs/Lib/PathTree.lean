/-
  Path trees — prefix-closed maps from paths to directories and files.

  A path is a list of components.  A `PathTree` says what every path leads to:
  nothing, a directory, or a file with its data; everything above a present
  path is a directory, so nothing lies below a file.

  * `insert` adds a file unless something is in its way, and `merge` adds to a
    tree everything of another one that the first does not already decide;
  * `holds_insertAll_root`: inserting a list of files in order keeps exactly its
    `survivors`, the entries whose path is compatible with all earlier ones;
  * `merge_assoc_iff`: regrouping two merges changes nothing unless a file of
    the middle tree hides, on one side only, a directory of the right tree;
  * `merge_of_apart`: merging trees whose files do not meet is their union.
-/
import Mathlib.Data.List.Infix
import Mathlib.Tactic.Common

namespace Fsvfs.Lib

universe u v
variable {κ : Type u} {α β : Type v}

open Classical

/-- What a path leads to. -/
inductive Kind (α : Type v) where
  | dir
  | file (a : α)
deriving DecidableEq, Repr

/-- The same kind with the data of a file replaced. -/
def Kind.map (f : α → β) : Kind α → Kind β
  | .dir => .dir
  | .file a => .file (f a)

@[simp] theorem Kind.map_eq_dir {f : α → β} {k : Kind α} : k.map f = .dir ↔ k = .dir := by
  cases k <;> simp [Kind.map]

/-- A prefix-closed map from paths to directories and files. -/
@[ext]
structure PathTree (κ : Type u) (α : Type v) where
  /-- what a path leads to -/
  kind : List κ → Option (Kind α)
  closed : ∀ p c, kind (p ++ [c]) ≠ none → kind p = some .dir

namespace PathTree

/-- A present path has directories above it. -/
theorem dir_above (t : PathTree κ α) {p q : List κ} (h : t.kind (p ++ q) ≠ none) (hq : q ≠ []) :
    t.kind p = some .dir := by
  induction q using List.reverseRecOn with
  | nil => exact absurd rfl hq
  | append_singleton q c ih =>
    rw [← List.append_assoc] at h
    have hd := t.closed _ _ h
    by_cases hq' : q = []
    · simpa [hq'] using hd
    · exact ih (by simp [hd]) hq'

theorem dir_of_lt (t : PathTree κ α) {p q : List κ} (h : t.kind q ≠ none) (hp : p <+: q)
    (hne : p ≠ q) : t.kind p = some .dir := by
  obtain ⟨r, rfl⟩ := hp
  exact t.dir_above h fun hr => hne (by simp [hr])

/-- Two files on one line are the same. -/
theorem file_unique (t : PathTree κ α) {p q : List κ} {a b : α} (hp : t.kind p = some (.file a))
    (hq : t.kind q = some (.file b)) (h : p <+: q) : p = q := by
  by_contra hne
  have := t.dir_of_lt (by simp [hq]) h hne
  rw [hp] at this; cases this

/-- A file lies on the way to `p`, or at `p`. -/
def Blocked (t : PathTree κ α) (p : List κ) : Prop :=
  ∃ q a, q <+: p ∧ t.kind q = some (.file a)

theorem Blocked.mono {t : PathTree κ α} {p q : List κ} (h : t.Blocked p) (hp : p <+: q) :
    t.Blocked q := by
  obtain ⟨r, a, hr, ha⟩ := h
  exact ⟨r, a, hr.trans hp, ha⟩

/-- Nothing at all, not even a root. -/
def empty : PathTree κ α where
  kind _ := none
  closed _ _ h := absurd rfl h

/-- A root directory with nothing below it. -/
def root : PathTree κ α where
  kind p := if p = [] then some .dir else none
  closed p c h := by simp at h

@[simp] theorem kind_empty (p : List κ) : (empty : PathTree κ α).kind p = none := rfl

/-- The tree with the data of its files replaced. -/
def map (f : α → β) (t : PathTree κ α) : PathTree κ β where
  kind p := (t.kind p).map (Kind.map f)
  closed p c h := by
    have := t.closed p c (by simpa using h)
    simp [this, Kind.map]

@[simp] theorem kind_map (f : α → β) (t : PathTree κ α) (p : List κ) :
    (t.map f).kind p = (t.kind p).map (Kind.map f) := rfl

@[simp] theorem map_empty {f : α → β} : (empty : PathTree κ α).map f = empty := rfl

theorem map_id {t : PathTree κ α} : t.map (fun a => a) = t := by
  ext1; funext p
  rcases h : t.kind p with _ | _ | a <;> simp [h, Kind.map]

theorem map_eq_none {f : α → β} {t : PathTree κ α} {p : List κ} :
    (t.map f).kind p = none ↔ t.kind p = none := by simp

theorem map_eq_dir {f : α → β} {t : PathTree κ α} {p : List κ} :
    (t.map f).kind p = some .dir ↔ t.kind p = some .dir := by
  cases h : t.kind p with
  | none => simp [h]
  | some k => simp [h]

theorem map_eq_file {f : α → β} {t : PathTree κ α} {p : List κ} {b : β} :
    (t.map f).kind p = some (.file b) ↔ ∃ a, t.kind p = some (.file a) ∧ f a = b := by
  rcases h : t.kind p with _ | _ | a <;> simp [h, Kind.map]

theorem blocked_map {f : α → β} {t : PathTree κ α} {p : List κ} :
    (t.map f).Blocked p ↔ t.Blocked p := by
  simp only [Blocked, map_eq_file]
  constructor
  · rintro ⟨q, b, hq, a, ha, -⟩; exact ⟨q, a, hq, ha⟩
  · rintro ⟨q, a, hq, ha⟩; exact ⟨q, f a, hq, a, ha, rfl⟩

/-! ## Inserting files -/

/-- Nothing is in the way of a new file at `p`. -/
def Free (t : PathTree κ α) (p : List κ) : Prop := t.kind p = none ∧ ¬ t.Blocked p

/-- `t` with the file `a` at `p`, unless something lies at `p` or a file lies
    above it. -/
noncomputable def insert (t : PathTree κ α) (p : List κ) (a : α) : PathTree κ α where
  kind q := if t.Free p ∧ q <+: p then (if q = p then some (.file a) else some .dir) else t.kind q
  closed q c h := by
    by_cases hf : t.Free p
    · by_cases hq : q ++ [c] <+: p
      · have hq' : q <+: p := (List.prefix_append q [c]).trans hq
        have hne : q ≠ p := by
          rintro rfl
          have hlen := hq.length_le
          rw [List.length_append, List.length_singleton] at hlen
          omega
        simp [hf, hq', hne]
      · simp only [hf, hq, and_false, if_false] at h
        have hd := t.closed q c h
        have hne : q ≠ p := by rintro rfl; rw [hf.1] at hd; cases hd
        simp [hf, hne, hd]
    · simp only [hf, false_and, if_false] at h ⊢
      exact t.closed q c h

theorem insert_of_not_free {t : PathTree κ α} {p : List κ} (h : ¬ t.Free p) (a : α) :
    t.insert p a = t := by
  ext1; funext q; simp [insert, h]

theorem kind_insert {t : PathTree κ α} {p : List κ} (h : t.Free p) (a : α) (q : List κ)
    [Decidable (q <+: p)] [Decidable (q = p)] : (t.insert p a).kind q =
      if q <+: p then (if q = p then some (.file a) else some .dir) else t.kind q := by
  simp only [insert, h, true_and]
  congr

theorem insert_file_iff {t : PathTree κ α} {p q : List κ} {a b : α} (h : t.Free p) :
    (t.insert p a).kind q = some (.file b) ↔ q = p ∧ b = a ∨ t.kind q = some (.file b) := by
  rw [kind_insert h]
  by_cases hq : q <+: p
  · by_cases hqp : q = p
    · subst hqp; simp [h.1, eq_comm]
    · have : t.kind q ≠ some (.file b) := fun hb => h.2 ⟨q, b, hq, hb⟩
      simp [hq, hqp, this]
  · have : q ≠ p := by rintro rfl; exact hq List.prefix_rfl
    simp [hq, this]

theorem insert_dir_iff {t : PathTree κ α} {p q : List κ} {a : α} (h : t.Free p) :
    (t.insert p a).kind q = some .dir ↔ q <+: p ∧ q ≠ p ∨ t.kind q = some .dir := by
  rw [kind_insert h]
  by_cases hq : q <+: p
  · by_cases hqp : q = p
    · subst hqp; simp [h.1]
    · simp [hq, hqp]
  · simp [hq]

/-- The files inserted in order. -/
noncomputable def insertAll (t : PathTree κ α) (l : List (List κ × α)) : PathTree κ α :=
  l.foldl (fun t f => t.insert f.1 f.2) t

/-- Neither path is a prefix of the other. -/
def Compatible (p q : List κ) : Prop := ¬ p <+: q ∧ ¬ q <+: p

theorem Compatible.symm {p q : List κ} (h : Compatible p q) : Compatible q p := ⟨h.2, h.1⟩

instance [DecidableEq κ] (p q : List κ) : Decidable (Compatible p q) :=
  inferInstanceAs (Decidable (_ ∧ _))

/-- The entries kept so far, and `f` if its path is non-empty and compatible
    with all of them. -/
def survive [DecidableEq κ] (kept : List (List κ × α)) (f : List κ × α) : List (List κ × α) :=
  if f.1 ≠ [] ∧ ∀ s ∈ kept, Compatible s.1 f.1 then kept ++ [f] else kept

/-- The entries whose path is non-empty and neither equal to, nor a prefix of,
    nor an extension of the path of an earlier survivor. -/
def survivors [DecidableEq κ] (l : List (List κ × α)) : List (List κ × α) := l.foldl survive []

theorem mem_survivors [DecidableEq κ] {l : List (List κ × α)} {s : List κ × α}
    (h : s ∈ survivors l) : s ∈ l := by
  have key : ∀ (l kept : List (List κ × α)), s ∈ l.foldl survive kept → s ∈ kept ∨ s ∈ l := by
    intro l
    induction l with
    | nil => exact fun kept hs => Or.inl hs
    | cons f l ih =>
      intro kept hs
      rcases ih _ hs with hs | hs
      · rw [survive] at hs
        split_ifs at hs
        · rcases List.mem_append.1 hs with hs | hs
          · exact Or.inl hs
          · exact Or.inr (by rw [List.mem_singleton.1 hs]; exact List.mem_cons_self)
        · exact Or.inl hs
      · exact Or.inr (List.mem_cons_of_mem f hs)
  simpa using key l [] h

/-- Entries that are compatible with each other all survive. -/
theorem survivors_of_pairwise [DecidableEq κ] {l : List (List κ × α)} (hne : ∀ f ∈ l, f.1 ≠ [])
    (h : l.Pairwise fun f g => Compatible f.1 g.1) : survivors l = l := by
  have key : ∀ (l kept : List (List κ × α)), (∀ f ∈ l, f.1 ≠ []) →
      (kept ++ l).Pairwise (fun f g => Compatible f.1 g.1) → l.foldl survive kept = kept ++ l := by
    intro l
    induction l with
    | nil =>
      intro kept _ _
      rw [List.foldl_nil, List.append_nil]
    | cons f l ih =>
      intro kept hne hp
      obtain ⟨hf, hl⟩ := List.forall_mem_cons.1 hne
      have hkept : ∀ s ∈ kept, Compatible s.1 f.1 := fun s hs =>
        (List.pairwise_append.1 hp).2.2 s hs f List.mem_cons_self
      rw [List.foldl_cons, survive, if_pos ⟨hf, hkept⟩, ih _ hl (by simpa using hp)]
      simp
  simpa [survivors] using key l [] hne h

/-- A path survives in some entry if every entry has that path or one that is
    compatible with it. -/
theorem exists_survivor [DecidableEq κ] {l : List (List κ × α)} {p : List κ} (hp : p ≠ [])
    (h : ∀ f ∈ l, f.1 = p ∨ Compatible f.1 p) (hmem : ∃ f ∈ l, f.1 = p) :
    ∃ s ∈ survivors l, s.1 = p := by
  have key : ∀ (l kept : List (List κ × α)), (∀ f ∈ l, f.1 = p ∨ Compatible f.1 p) →
      (∀ s ∈ kept, s.1 = p ∨ Compatible s.1 p) → (∃ s ∈ kept, s.1 = p) ∨ (∃ f ∈ l, f.1 = p) →
        ∃ s ∈ l.foldl survive kept, s.1 = p := by
    intro l
    induction l with
    | nil =>
      rintro kept - - (hkept | ⟨f, hf, -⟩)
      · exact hkept
      · cases hf
    | cons f l ih =>
      intro kept hl hkept hany
      obtain ⟨hf, hl⟩ := List.forall_mem_cons.1 hl
      rw [List.foldl_cons]
      have hkept' : ∀ s ∈ survive kept f, s.1 = p ∨ Compatible s.1 p := by
        intro s hs
        rw [survive] at hs
        split_ifs at hs
        · rcases List.mem_append.1 hs with hs | hs
          · exact hkept s hs
          · rw [List.mem_singleton.1 hs]
            exact hf
        · exact hkept s hs
      have hsub : ∀ s ∈ kept, s ∈ survive kept f := by
        intro s hs
        rw [survive]
        split_ifs
        · exact List.mem_append_left _ hs
        · exact hs
      refine ih _ hl hkept' ?_
      rcases hany with ⟨s, hs, hsp⟩ | ⟨g, hg, hgp⟩
      · exact Or.inl ⟨s, hsub s hs, hsp⟩
      · rcases List.mem_cons.1 hg with rfl | hg
        · -- the entry itself, unless its path is there already
          by_cases hthere : ∃ s ∈ kept, s.1 = p
          · obtain ⟨s, hs, hsp⟩ := hthere
            exact Or.inl ⟨s, hsub s hs, hsp⟩
          · refine Or.inl ⟨g, ?_, hgp⟩
            have hcompatible : ∀ s ∈ kept, Compatible s.1 g.1 := by
              intro s hs
              rw [hgp]
              exact (hkept s hs).resolve_left fun hsp => hthere ⟨s, hs, hsp⟩
            rw [survive, if_pos ⟨by rwa [hgp], hcompatible⟩]
            exact List.mem_append_right _ List.mem_cons_self
        · exact Or.inr ⟨g, hg, hgp⟩
  exact key l [] h (fun s hs => by cases hs) (Or.inr hmem)

/-- The files of `t` are those of `kept`, and its directories the root and
    what lies above a file. -/
structure Holds (t : PathTree κ α) (kept : List (List κ × α)) : Prop where
  file : ∀ p a, t.kind p = some (.file a) ↔ (p, a) ∈ kept
  dir : ∀ p, t.kind p = some .dir ↔ p = [] ∨ ∃ s ∈ kept, p <+: s.1 ∧ p ≠ s.1

theorem holds_root : (root : PathTree κ α).Holds [] where
  file p a := by by_cases hp : p = [] <;> simp [root, hp]
  dir p := by by_cases hp : p = [] <;> simp [root, hp]

/-- The free paths of a tree are those that survive its files. -/
theorem Holds.free_iff {t : PathTree κ α} {kept : List (List κ × α)} (h : t.Holds kept)
    (p : List κ) : t.Free p ↔ p ≠ [] ∧ ∀ s ∈ kept, Compatible s.1 p := by
  constructor
  · rintro ⟨hn, hb⟩
    refine ⟨?_, fun s hs => ⟨fun hsp => ?_, fun hps => ?_⟩⟩
    · rintro rfl
      rw [(h.dir []).2 (Or.inl rfl)] at hn; cases hn
    · exact hb ⟨s.1, s.2, hsp, (h.file _ _).2 hs⟩
    · by_cases hne : p = s.1
      · rw [hne, (h.file _ s.2).2 hs] at hn; cases hn
      · rw [(h.dir p).2 (Or.inr ⟨s, hs, hps, hne⟩)] at hn; cases hn
  · rintro ⟨hp, hc⟩
    refine ⟨?_, ?_⟩
    · rcases hk : t.kind p with _ | _ | a
      · rfl
      · rcases (h.dir p).1 hk with rfl | ⟨s, hs, hps, -⟩
        · exact absurd rfl hp
        · exact absurd hps (hc s hs).2
      · exact absurd List.prefix_rfl (hc _ ((h.file p a).1 hk)).1
    · rintro ⟨q, a, hq, ha⟩
      exact (hc _ ((h.file q a).1 ha)).1 hq

/-- Inserting one more file keeps exactly the survivors. -/
theorem Holds.insert [DecidableEq κ] {t : PathTree κ α} {kept : List (List κ × α)}
    (h : t.Holds kept) (f : List κ × α) : (t.insert f.1 f.2).Holds (survive kept f) := by
  by_cases hf : t.Free f.1
  · rw [survive, if_pos ((h.free_iff _).1 hf)]
    constructor
    · intro p a
      rw [insert_file_iff hf, h.file, List.mem_append, List.mem_singleton, Prod.ext_iff, or_comm]
    · intro p
      rw [insert_dir_iff hf, h.dir]
      simp only [List.mem_append, List.mem_singleton, or_and_right, exists_or, exists_eq_left]
      rw [or_comm, or_assoc]
  · rw [survive, if_neg fun hs => hf ((h.free_iff _).2 hs), insert_of_not_free hf]
    exact h

theorem Holds.insertAll [DecidableEq κ] : ∀ (l : List (List κ × α)) {t : PathTree κ α}
    {kept : List (List κ × α)}, t.Holds kept → (t.insertAll l).Holds (l.foldl survive kept)
  | [], _, _, h => h
  | f :: l, _, _, h => Holds.insertAll l (h.insert f)

/-- **Inserting files in order keeps exactly the survivors.** -/
theorem holds_insertAll_root [DecidableEq κ] (l : List (List κ × α)) :
    ((root : PathTree κ α).insertAll l).Holds (survivors l) :=
  Holds.insertAll l holds_root

/-! ## Merging -/

/-- `t`, and what `u` adds where `t` has nothing and no file above. -/
noncomputable def merge (t u : PathTree κ α) : PathTree κ α where
  kind p := match t.kind p with
    | some k => some k
    | none => if t.Blocked p then none else u.kind p
  closed p c h := by
    cases hk : t.kind (p ++ [c]) with
    | some k => rw [t.closed p c (by simp [hk])]
    | none =>
      have hb : ¬ t.Blocked (p ++ [c]) := fun hb => by simp [hk, hb] at h
      have hu := u.closed p c (by simpa [hk, hb] using h)
      have hb' : ¬ t.Blocked p := fun h' => hb (h'.mono (List.prefix_append p [c]))
      rcases hp : t.kind p with _ | _ | a
      · simp [hb', hu]
      · rfl
      · exact absurd ⟨p, a, List.prefix_rfl, hp⟩ hb'

theorem merge_of_some {t u : PathTree κ α} {p : List κ} {k : Kind α} (h : t.kind p = some k) :
    (t.merge u).kind p = some k := by simp [merge, h]

theorem merge_of_blocked {t u : PathTree κ α} {p : List κ} (h : t.kind p = none)
    (hb : t.Blocked p) : (t.merge u).kind p = none := by simp [merge, h, hb]

theorem merge_of_free {t u : PathTree κ α} {p : List κ} (h : t.Free p) :
    (t.merge u).kind p = u.kind p := by simp [merge, h.1, h.2]

/-- A path is present in the left tree, below one of its files, or free. -/
theorem cases_kind (t : PathTree κ α) (p : List κ) :
    (∃ k, t.kind p = some k) ∨ (t.kind p = none ∧ t.Blocked p) ∨ t.Free p := by
  cases hk : t.kind p with
  | some k => exact Or.inl ⟨k, rfl⟩
  | none =>
    by_cases hb : t.Blocked p
    · exact Or.inr (Or.inl ⟨rfl, hb⟩)
    · exact Or.inr (Or.inr ⟨hk, hb⟩)

@[simp] theorem empty_merge (t : PathTree κ α) : (empty : PathTree κ α).merge t = t := by
  ext1; funext p
  exact merge_of_free ⟨rfl, fun ⟨_, _, _, h⟩ => by simp at h⟩

@[simp] theorem merge_empty (t : PathTree κ α) : t.merge (empty : PathTree κ α) = t := by
  ext1; funext p
  rcases t.cases_kind p with ⟨k, hk⟩ | ⟨hn, hb⟩ | hf
  · rw [merge_of_some hk, hk]
  · rw [merge_of_blocked hn hb, hn]
  · rw [merge_of_free hf, hf.1, kind_empty]

/-- What is left of a file of the merged tree: it is the left tree's, or the
    right tree's where the left one is free. -/
theorem merge_file_iff {t u : PathTree κ α} {p : List κ} {a : α} :
    (t.merge u).kind p = some (.file a) ↔
      t.kind p = some (.file a) ∨ t.Free p ∧ u.kind p = some (.file a) := by
  rcases t.cases_kind p with ⟨k, hk⟩ | ⟨hn, hb⟩ | hf
  · have : ¬ t.Free p := fun hf => by rw [hf.1] at hk; cases hk
    simp [merge_of_some hk, hk, this]
  · have : ¬ t.Free p := fun hf => hf.2 hb
    simp [merge_of_blocked hn hb, hn, this]
  · rw [merge_of_free hf]; simp [hf, hf.1]

theorem merge_dir_iff {t u : PathTree κ α} {p : List κ} :
    (t.merge u).kind p = some .dir ↔
      t.kind p = some .dir ∨ t.Free p ∧ u.kind p = some .dir := by
  rcases t.cases_kind p with ⟨k, hk⟩ | ⟨hn, hb⟩ | hf
  · have : ¬ t.Free p := fun hf => by rw [hf.1] at hk; cases hk
    simp [merge_of_some hk, hk, this]
  · have : ¬ t.Free p := fun hf => hf.2 hb
    simp [merge_of_blocked hn hb, hn, this]
  · rw [merge_of_free hf]; simp [hf, hf.1]

/-- Where the left tree is free, the merged tree is blocked by files of the
    right tree that do not meet a directory of the left one. -/
theorem merge_blocked_iff {t u : PathTree κ α} {p : List κ} (h : t.Free p) :
    (t.merge u).Blocked p ↔ ∃ q a, q <+: p ∧ u.kind q = some (.file a) ∧ t.kind q = none := by
  have hfree : ∀ q, q <+: p → (t.Free q ↔ t.kind q = none) := fun q hq =>
    ⟨fun hf => hf.1, fun hn => ⟨hn, fun hb => h.2 (hb.mono hq)⟩⟩
  constructor
  · rintro ⟨q, a, hq, ha⟩
    rcases merge_file_iff.1 ha with ha | ⟨hf, ha⟩
    · exact absurd ⟨q, a, hq, ha⟩ h.2
    · exact ⟨q, a, hq, ha, hf.1⟩
  · rintro ⟨q, a, hq, ha, hn⟩
    exact ⟨q, a, hq, merge_file_iff.2 (Or.inr ⟨(hfree q hq).2 hn, ha⟩)⟩

/-- Regrouping loses something: `p` is a directory of `t` and of `v` but a
    file of `u`, and below it `v` has something where `t` is free. -/
def Regroups (t u v : PathTree κ α) : Prop :=
  ∃ p q, p <+: q ∧ t.kind p = some .dir ∧ (∃ a, u.kind p = some (.file a)) ∧ t.Free q ∧
    v.kind q ≠ none

/-- At a path free in `t` and absent from `u`, both groupings ask `v`, unless
    a file of `u` hides it. -/
theorem merge_assoc_kind {t u v : PathTree κ α} (h : ¬ Regroups t u v) (q : List κ) :
    ((t.merge u).merge v).kind q = (t.merge (u.merge v)).kind q := by
  rcases t.cases_kind q with ⟨k, hk⟩ | ⟨hn, hb⟩ | hf
  · rw [merge_of_some (merge_of_some hk), merge_of_some hk]
  · rw [merge_of_blocked hn hb, merge_of_blocked (merge_of_blocked hn hb)]
    obtain ⟨p, a, hp, ha⟩ := hb
    exact ⟨p, a, hp, merge_of_some ha⟩
  · rw [merge_of_free hf]
    cases hu : u.kind q with
    | some k => rw [merge_of_some hu, merge_of_some (by rw [merge_of_free hf, hu])]
    | none =>
      have hn : (t.merge u).kind q = none := by rw [merge_of_free hf, hu]
      by_cases hb : u.Blocked q
      · rw [merge_of_blocked hu hb]
        obtain ⟨p, a, hp, ha⟩ := hb
        by_cases hb' : (t.merge u).Blocked q
        · exact merge_of_blocked hn hb'
        · rw [merge_of_free ⟨hn, hb'⟩]
          by_contra hv
          refine h ⟨p, q, hp, ?_, ⟨a, ha⟩, hf, hv⟩
          rw [merge_blocked_iff hf] at hb'
          rcases hk : t.kind p with _ | _ | b
          · exact absurd ⟨p, a, hp, ha, hk⟩ hb'
          · rfl
          · exact absurd ⟨p, b, hp, hk⟩ hf.2
      · rw [merge_of_free ⟨hu, hb⟩, merge_of_free ⟨hn, ?_⟩]
        rw [merge_blocked_iff hf]
        rintro ⟨p, a, hp, ha, -⟩
        exact hb ⟨p, a, hp, ha⟩

/-- Where regrouping loses something, it shows at that path. -/
theorem merge_assoc_ne {t u v : PathTree κ α} {p q : List κ} {a : α} (hpq : p <+: q)
    (ht : t.kind p = some .dir) (hu : u.kind p = some (.file a)) (hf : t.Free q)
    (hv : v.kind q ≠ none) :
    (t.merge (u.merge v)).kind q = none ∧ ((t.merge u).merge v).kind q = v.kind q := by
  have hne : p ≠ q := by rintro rfl; rw [hf.1] at ht; cases ht
  have huq : u.kind q = none := by
    by_contra hc
    have := u.dir_of_lt hc hpq hne
    rw [hu] at this; cases this
  refine ⟨?_, ?_⟩
  · rw [merge_of_free hf, merge_of_blocked huq ⟨p, a, hpq, hu⟩]
  · refine merge_of_free ⟨by rw [merge_of_free hf, huq], ?_⟩
    rw [merge_blocked_iff hf]
    rintro ⟨r, b, hr, hb, hn⟩
    -- two files of `u` above `q` are the same, and `t` has a directory there
    have hrp : r = p := by
      rcases List.prefix_or_prefix_of_prefix hr hpq with h | h
      · exact u.file_unique hb hu h
      · exact (u.file_unique hu hb h).symm
    rw [hrp, ht] at hn; cases hn

/-- **When merging is associative.** -/
theorem merge_assoc_iff {t u v : PathTree κ α} :
    (t.merge u).merge v = t.merge (u.merge v) ↔ ¬ Regroups t u v := by
  constructor
  · rintro heq ⟨p, q, hpq, ht, ⟨a, hu⟩, hf, hv⟩
    obtain ⟨h1, h2⟩ := merge_assoc_ne hpq ht hu hf hv
    rw [← heq, h2] at h1
    exact hv h1
  · intro h
    ext1; funext q
    exact merge_assoc_kind h q

theorem map_merge {f : α → β} {t u : PathTree κ α} :
    (t.merge u).map f = (t.map f).merge (u.map f) := by
  ext1; funext p
  rcases t.cases_kind p with ⟨k, hk⟩ | ⟨hn, hb⟩ | hf
  · rw [kind_map, merge_of_some hk, merge_of_some (by rw [kind_map, hk]; rfl)]; rfl
  · rw [kind_map, merge_of_blocked hn hb, merge_of_blocked (map_eq_none.2 hn) (blocked_map.2 hb)]
    rfl
  · rw [kind_map, merge_of_free hf,
      merge_of_free ⟨map_eq_none.2 hf.1, fun h => hf.2 (blocked_map.1 h)⟩, kind_map]

/-! ## Trees whose files do not meet -/

/-- No file of one tree lies at, above or below a file of the other. -/
def Apart (t u : PathTree κ α) : Prop :=
  ∀ p a q b, t.kind p = some (.file a) → u.kind q = some (.file b) → Compatible p q

/-- The root is a directory, and every other directory has a file below it. -/
structure Full (t : PathTree κ α) : Prop where
  root : t.kind [] = some .dir
  file_below : ∀ p, t.kind p = some .dir → p ≠ [] → ∃ q a, p <+: q ∧ t.kind q = some (.file a)

theorem Holds.full {t : PathTree κ α} {kept : List (List κ × α)} (h : t.Holds kept) : t.Full where
  root := (h.dir []).2 (Or.inl rfl)
  file_below p hp hne := by
    rcases (h.dir p).1 hp with rfl | ⟨s, hs, hps, -⟩
    · exact absurd rfl hne
    · exact ⟨s.1, s.2, hps, (h.file _ _).2 hs⟩

theorem Full.map {t : PathTree κ α} (h : t.Full) (f : α → β) : (t.map f).Full where
  root := by rw [kind_map, h.root]; rfl
  file_below p hp hne := by
    obtain ⟨q, a, hpq, ha⟩ := h.file_below p (map_eq_dir.1 hp) hne
    exact ⟨q, f a, hpq, by rw [kind_map, ha]; rfl⟩

theorem merge_full {t u : PathTree κ α} (ht : t.Full) (hu : u.Full) : (t.merge u).Full where
  root := merge_of_some ht.root
  file_below p hp hne := by
    rcases merge_dir_iff.1 hp with h | ⟨hf, h⟩
    · obtain ⟨q, a, hpq, ha⟩ := ht.file_below p h hne
      exact ⟨q, a, hpq, merge_of_some ha⟩
    · obtain ⟨q, a, hpq, ha⟩ := hu.file_below p h hne
      refine ⟨q, a, hpq, ?_⟩
      -- nothing of `t` lies at or below `p`, so `q` is free too
      have habove : ∀ r, r <+: q → t.kind r ≠ none → r <+: p := fun r hr hk => by
        rcases List.prefix_or_prefix_of_prefix hr hpq with h' | h'
        · exact h'
        · by_cases hrp : p = r
          · exact hrp ▸ List.prefix_rfl
          · have := t.dir_of_lt hk h' hrp
            rw [hf.1] at this; cases this
      refine merge_file_iff.2 (Or.inr ⟨⟨?_, ?_⟩, ha⟩)
      · by_contra hk
        have hqp := habove q List.prefix_rfl hk
        rw [(hqp.eq_of_length_le hpq.length_le)] at hk
        exact hk hf.1
      · rintro ⟨r, b, hr, hb⟩
        exact hf.2 ⟨r, b, habove r hr (by simp [hb]), hb⟩

/-- Where a file of `t` and a directory of `u` meet, a file of `u` lies below. -/
theorem Full.not_dir_below {t u : PathTree κ α} (ht : t.Full) (hu : u.Full) (h : Apart t u)
    {p q : List κ} {a : α} (hp : t.kind p = some (.file a)) (hq : u.kind q = some .dir)
    (hpq : p <+: q) : False := by
  have hne : q ≠ [] := by
    rintro rfl
    rw [List.prefix_nil.1 hpq, ht.root] at hp; cases hp
  obtain ⟨r, b, hqr, hb⟩ := hu.file_below q hq hne
  exact (h _ _ _ _ hp hb).1 (hpq.trans hqr)

theorem Apart.symm {t u : PathTree κ α} (h : Apart t u) : Apart u t :=
  fun p a q b hp hq => (h q b p a hq hp).symm

/-- **Merging trees whose files do not meet is their union.** -/
theorem merge_of_apart {t u : PathTree κ α} (ht : t.Full) (hu : u.Full) (h : Apart t u)
    {p : List κ} {k : Kind α} :
    (t.merge u).kind p = some k ↔ t.kind p = some k ∨ u.kind p = some k := by
  have hfree : u.kind p = some k → t.kind p ≠ some k → t.Free p := by
    intro hk hne
    refine ⟨?_, ?_⟩
    · rcases htp : t.kind p with _ | _ | b
      · rfl
      · cases k with
        | dir => exact absurd htp hne
        | file a => exact (hu.not_dir_below ht h.symm hk htp List.prefix_rfl).elim
      · cases k with
        | dir => exact (ht.not_dir_below hu h htp hk List.prefix_rfl).elim
        | file a => exact absurd List.prefix_rfl (h _ _ _ _ htp hk).1
    · rintro ⟨q, b, hq, hb⟩
      cases k with
      | dir => exact ht.not_dir_below hu h hb hk hq
      | file a => exact (h _ _ _ _ hb hk).1 hq
  cases k with
  | dir =>
    rw [merge_dir_iff]
    constructor
    · rintro (h1 | ⟨-, h1⟩)
      · exact Or.inl h1
      · exact Or.inr h1
    · intro h1
      by_cases h2 : t.kind p = some .dir
      · exact Or.inl h2
      · have hk := h1.resolve_left h2
        exact Or.inr ⟨hfree hk h2, hk⟩
  | file a =>
    rw [merge_file_iff]
    constructor
    · rintro (h1 | ⟨-, h1⟩)
      · exact Or.inl h1
      · exact Or.inr h1
    · intro h1
      by_cases h2 : t.kind p = some (.file a)
      · exact Or.inl h2
      · have hk := h1.resolve_left h2
        exact Or.inr ⟨hfree hk h2, hk⟩

end PathTree

end Fsvfs.Lib
