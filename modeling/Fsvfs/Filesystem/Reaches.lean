/-
  Where a path leads from a node, and which inodes `lookup_in_dir` returns.

  * `walk_eq_some_iff`: the loop of `inode_by_path` follows the child ranges;
  * `lookupInDir_eq_ok_iff`: `lookup_in_dir` returns the inode of the node that
    the path leads to from the parent, whose index it truncates to a `u32`;
  * `lookupExists_iff`: all that it finds exists if and only if the parent does.
    If not, it finds the parent itself under paths without components, and the
    children of the node with the truncated index under their names;
  * `not_lookupExists`: both happen.
-/
import Fsvfs.Filesystem.Built

namespace Fsvfs

open Lib

namespace Rofs
variable {C : Config} {T : Type} {E : Eytzinger} {n : ℕ} {fs : Rofs C T}

/-- A path leads from one index to another.  Without components it leads from
    every index to itself, whether or not there is a node. -/
inductive Reaches (fs : Rofs C T) : ℕ → List Str → ℕ → Prop
  | refl {i} : Reaches fs i [] i
  | step {i k j child cs} : fs.Owns i k → fs.nodes[k]? = some child → Reaches fs k cs j →
      Reaches fs i (fs.nodeName child :: cs) j

/-- What a path leads to exists if what it leads from does. -/
theorem Reaches.lt {i j : ℕ} {cs : List Str} (h : fs.Reaches i cs j) (hi : i < fs.nodes.length) :
    j < fs.nodes.length := by
  induction h with
  | refl => exact hi
  | step _ hk _ ih => exact ih (List.getElem?_eq_some_iff.1 hk).1

/-- A path with components leads only from a node to a node. -/
theorem Reaches.of_ne_nil {i j : ℕ} {cs : List Str} (h : fs.Reaches i cs j) (hcs : cs ≠ []) :
    i < fs.nodes.length ∧ j < fs.nodes.length := by
  cases h with
  | refl => exact absurd rfl hcs
  | step howns hk h =>
    obtain ⟨node, r, hnode, -, -⟩ := howns
    have hi := (List.getElem?_eq_some_iff.1 hnode).1
    exact ⟨hi, h.lt (List.getElem?_eq_some_iff.1 hk).1⟩

/-- Searching a directory finds its child of that name. -/
theorem ShowsNode.search_iff {s : Branch} {node : Node} {start count k : ℕ} {c : Str}
    (h : fs.ShowsNode E (.branch s) node) (hs : s.Wf C n) (hcontent : node.content = .dir start count) :
    E.searchByKey (fs.slice start (start + count)) (byteKey c.bytes)
        (fun node => byteKey (fs.nodeName node).bytes) = some k ↔
      InRange (start + k) (start, count) ∧
        ∃ child, fs.nodes[start + k]? = some child ∧ fs.nodeName child = c := by
  have hr : node.childRange = some (start, count) := childRange_eq_some.2 hcontent
  have hchild : ∀ {i : ℕ} {child : Node}, InRange i (start, count) → fs.nodes[i]? = some child →
      ∃ t, s.get (fs.nodeName child) = some t ∧
        NameAt fs.names child.nameIndex (fs.nodeName child) := by
    intro i child hi hnode
    obtain ⟨child', c', t, hnode', hg, hat, -⟩ := h.child hs hr hi
    obtain rfl : child = child' := Option.some.inj (hnode.symm.trans hnode')
    rw [nodeName_of_nameAt hat]
    exact ⟨t, hg, hat⟩
  obtain ⟨start', raw, hcontent', hshows, hl⟩ := id h
  obtain ⟨rfl, rfl⟩ : start' = start ∧ s.length = count := by
    rw [hcontent'] at hcontent
    cases hcontent
    exact ⟨rfl, rfl⟩
  rcases search_laid hshows hl hs c with ⟨hg, hsearch⟩ | ⟨t, i, child, hg, hsearch, hi, hnode, hat, -⟩
  · rw [hsearch]
    refine ⟨nofun, ?_⟩
    rintro ⟨hk, child, hnode, rfl⟩
    obtain ⟨t, hg', -⟩ := hchild hk hnode
    rw [hg] at hg'
    cases hg'
  · have hlt : i < s.length := by
      have hi' := (List.getElem?_eq_some_iff.1 hi).1
      rw [slice, Nat.add_sub_cancel_left, List.length_take] at hi'
      omega
    have hin : InRange (start' + i) (start', s.length) :=
      ⟨Nat.le_add_right _ _, Nat.add_lt_add_left hlt _⟩
    rw [hsearch, Option.some.injEq]
    constructor
    · rintro rfl
      exact ⟨hin, child, hnode, nodeName_of_nameAt hat⟩
    · rintro ⟨hk, child', hnode', hname⟩
      obtain ⟨-, -, hat'⟩ := hchild hk hnode'
      refine Nat.add_left_cancel (h.child_unique hr hin hk hnode hnode' ?_)
      rw [nodeKey, nodeKey, hat.nameBytes, hat'.nameBytes, hname]

end Rofs

namespace RofsObject.IntoRofs
variable {C : Config} {T : Type} {E : Eytzinger} {obj : RofsObject C T} {fs : Rofs C T}

/-- A directory node shows a well-formed branch. -/
theorem exists_branch (h : obj.IntoRofs E fs) {d : ℕ} {node : Node} {r : ℕ × ℕ}
    (hnode : fs.nodes[d]? = some node) (hr : node.childRange = some r) :
    ∃ s : Branch, s.Wf C obj.files.length ∧ fs.ShowsNode E (.branch s) node := by
  rcases hb : obj.branch with _ | b
  · rw [h.flattened.2.of_none hb] at hnode
    cases hnode
  · obtain ⟨p, hat⟩ := Rofs.exists_at h.flattened.2.forward (h.covered hb)
      (List.getElem?_eq_some_iff.1 hnode).1
    obtain ⟨s, hs⟩ := h.shownAt_branch hb hat hnode hr
    exact ⟨s, hs.wf s rfl, hs.shows⟩

/-- One step of the loop of `inode_by_path`. -/
theorem walk_cons_eq_some_iff (h : obj.IntoRofs E fs) {c : Str} {cs : List Str} {i j : ℕ} :
    fs.walk E i (c :: cs) = some j ↔ ∃ k child, fs.Owns i k ∧ fs.nodes[k]? = some child ∧
      fs.nodeName child = c ∧ fs.walk E k cs = some j := by
  rcases hnode : fs.nodes[i]? with _ | node
  · -- there is no node
    rw [Rofs.walk, hnode]
    constructor
    · intro hwalk
      cases hwalk
    · rintro ⟨k, child, ⟨node, r, hnode', -⟩, -⟩
      rw [hnode] at hnode'
      cases hnode'
  obtain ⟨content, nameIndex⟩ := node
  cases content with
  | file data =>
    rw [Rofs.walk, hnode]
    constructor
    · intro hwalk
      cases hwalk
    · rintro ⟨k, child, ⟨node, r, hnode', hr, -⟩, -⟩
      rw [hnode] at hnode'
      cases hnode'
      cases hr
  | dir start count =>
    obtain ⟨s, hs, hshows⟩ := h.exists_branch hnode rfl
    have hsearch := fun k => hshows.search_iff (k := k) (c := c) hs rfl
    rw [Rofs.walk, hnode]
    dsimp only
    constructor
    · intro hwalk
      rcases hk : E.searchByKey (fs.slice start (start + count)) (byteKey c.bytes)
          (fun node => byteKey (fs.nodeName node).bytes) with _ | k
      · rw [hk] at hwalk
        cases hwalk
      · rw [hk] at hwalk
        obtain ⟨hin, child, hchild, hname⟩ := (hsearch k).1 hk
        dsimp only at hwalk
        rw [Nat.add_comm] at hwalk
        exact ⟨start + k, child, ⟨_, _, hnode, rfl, hin⟩, hchild, hname, hwalk⟩
    · rintro ⟨k, child, ⟨node', r, hnode', hr, hin⟩, hchild, hname, hwalk⟩
      rw [hnode] at hnode'
      cases hnode'
      obtain ⟨start', count'⟩ := r
      cases hr
      obtain ⟨m, rfl⟩ := Nat.exists_eq_add_of_le hin.1
      rw [(hsearch m).2 ⟨hin, child, hchild, hname⟩]
      dsimp only
      rw [Nat.add_comm]
      exact hwalk

/-- **The loop of `inode_by_path` follows the child ranges.** -/
theorem walk_eq_some_iff (h : obj.IntoRofs E fs) {cs : List Str} {i j : ℕ} :
    fs.walk E i cs = some j ↔ fs.Reaches i cs j := by
  induction cs generalizing i with
  | nil =>
    rw [Rofs.walk, Option.some.injEq]
    constructor
    · rintro rfl
      exact .refl
    · intro hreach
      cases hreach
      rfl
  | cons c cs ih =>
    rw [h.walk_cons_eq_some_iff]
    constructor
    · rintro ⟨k, child, howns, hchild, rfl, hwalk⟩
      exact .step howns hchild (ih.1 hwalk)
    · intro hreach
      cases hreach with
      | @step _ k _ child _ howns hchild hrest => exact ⟨k, child, howns, hchild, rfl, ih.2 hrest⟩

/-- The same as `u32`s. -/
theorem inodeByPath_eq_some_iff (h : obj.IntoRofs E fs) {parent j : UInt32} {path : Str} :
    fs.inodeByPath E parent path = some j ↔
      fs.Reaches parent.toNat (components C path) j.toNat := by
  unfold Rofs.inodeByPath
  rcases hcs : components C path with _ | ⟨c, cs⟩
  · rw [← h.walk_eq_some_iff, Rofs.walk, Option.some.injEq, Option.some.injEq, UInt32.toNat_inj]
  · rw [← h.walk_eq_some_iff]
    simp only [Option.map_eq_some_iff]
    constructor
    · rintro ⟨i, hi, rfl⟩
      have hlt := ((h.walk_eq_some_iff.1 hi).of_ne_nil (by simp)).2
      have h32 := h.flattened.2.length_lt
      rw [hi, Nat.toUInt32_eq, UInt32.toNat_ofNat', Nat.mod_eq_of_lt (hlt.trans h32)]
    · intro hi
      exact ⟨_, hi, UInt32.ofNat_toNat⟩

end RofsObject.IntoRofs

/-! ## `lookup_in_dir` -/

namespace Rofs
variable {C : Config} {T : Type} {E : Eytzinger} {fs : Rofs C T}

/-- Where a path leads as it is or, if it leads nowhere, in lowercase. -/
def Leads (fs : Rofs C T) (parent : ℕ) (path : Str) (j : ℕ) : Prop :=
  fs.Reaches parent (components C path) j ∨
    (∀ i, ¬ fs.Reaches parent (components C path) i) ∧ fs.Reaches parent (components C path.lower) j

/-- A path leads from a `u32` to a `u32`. -/
theorem Reaches.exists_u32 (hlt : fs.nodes.length < 2 ^ 32) {i : UInt32} {j : ℕ} {cs : List Str}
    (h : fs.Reaches i.toNat cs j) : ∃ j' : UInt32, j'.toNat = j := by
  have hj : j < 2 ^ 32 := by
    cases h with
    | refl => exact i.toNat_lt
    | step howns hk h => exact (h.lt (List.getElem?_eq_some_iff.1 hk).1).trans hlt
  exact ⟨UInt32.ofNat j, by rw [UInt32.toNat_ofNat', Nat.mod_eq_of_lt hj]⟩

theorem Leads.reaches {i j : ℕ} {path : Str} (h : fs.Leads i path j) : ∃ cs, fs.Reaches i cs j := by
  rcases h with h | ⟨-, h⟩
  · exact ⟨_, h⟩
  · exact ⟨_, h⟩

/-- A path has components, in lowercase too. -/
def HasComponents (C : Config) (path : Str) : Prop :=
  components C (normalizePath C path) ≠ [] ∧ components C (normalizePath C path).lower ≠ []

/-- The empty path has none. -/
theorem components_normalizePath_nil : components C (normalizePath C []) = [] := by
  rw [normalizePath, if_pos rfl, components]
  by_cases hdot : '.' ∈ C.separators
  · rw [splitPath_cons_sep hdot, splitPath_nil]
    decide
  · rw [splitPath_of_forall fun x hx => by rwa [List.mem_singleton.1 hx]]
    decide

/-- From an index without a node, only a path without components leads
    anywhere. -/
theorem leads_of_no_node {i : ℕ} (hi : fs.nodes.length ≤ i) {path : Str} :
    (∃ j, fs.Leads i path j) ↔ components C path = [] ∨ components C path.lower = [] := by
  have hno : ∀ {cs : List Str} {j : ℕ}, fs.Reaches i cs j → cs = [] := by
    intro cs j h
    by_contra hcs
    exact absurd (h.of_ne_nil hcs).1 (Nat.not_lt.2 hi)
  constructor
  · rintro ⟨j, h | ⟨-, h⟩⟩
    · exact Or.inl (hno h)
    · exact Or.inr (hno h)
  · intro h
    by_cases hcs : components C path = []
    · exact ⟨i, Or.inl (by rw [hcs]; exact .refl)⟩
    · refine ⟨i, Or.inr ⟨fun j hj => hcs (hno hj), ?_⟩⟩
      rw [h.resolve_left hcs]
      exact .refl

theorem entry_eq_ok_iff {p : UInt64} :
    (∃ e, fs.entry p = .ok e) ↔ (p - C.inodeRoot).toNat < fs.nodes.length := by
  rw [entry]
  rcases hn : fs.nodes[(p - C.inodeRoot).toNat]? with _ | node
  · simpa using hn
  · simpa [hn] using (List.getElem?_eq_some_iff.1 hn).1

theorem entry_eq_notFound_iff {p : UInt64} :
    fs.entry p = .error .notFound ↔ ¬ ∃ e, fs.entry p = .ok e := by
  rw [entry]
  rcases fs.nodes[(p - C.inodeRoot).toNat]? with _ | node <;> simp

end Rofs

namespace RofsObject.IntoRofs
variable {C : Config} {T : Type} {E : Eytzinger} {obj : RofsObject C T} {fs : Rofs C T}

theorem ignoreAsciiCase_eq_some_iff (h : obj.IntoRofs E fs) {parent j : UInt32} {path : Str} :
    fs.inodeByPathIgnoreAsciiCase E parent path = some j ↔ fs.Leads parent.toNat path j.toNat := by
  have h32 := h.flattened.2.length_lt
  have hlow : (toAsciiLowercase path).2 = false → path.lower = path := by
    intro hu
    have hu' : path.any Char.isUpper = false := hu
    rw [show path.lower = _ from (toAsciiLowercase_fst path).symm, toAsciiLowercase, hu']
    rfl
  unfold Rofs.inodeByPathIgnoreAsciiCase Rofs.Leads
  rcases hexact : fs.inodeByPath E parent path with _ | i
  · -- the path itself leads nowhere
    have hnone : ∀ i, ¬ fs.Reaches parent.toNat (components C path) i := by
      intro i hi
      obtain ⟨i', rfl⟩ := hi.exists_u32 h32
      have hsome := h.inodeByPath_eq_some_iff.2 hi
      rw [hexact] at hsome
      cases hsome
    simp only [hnone, false_or, not_false_eq_true, implies_true, true_and]
    rw [← h.inodeByPath_eq_some_iff, toAsciiLowercase_fst]
    rcases hu : (toAsciiLowercase path).2 with _ | _
    · rw [hlow hu, hexact]
      simp
    · simp
  · simp only [Option.some.injEq]
    have hi := h.inodeByPath_eq_some_iff.1 hexact
    constructor
    · rintro rfl
      exact Or.inl hi
    · rintro (hj | ⟨hno, -⟩)
      · exact Option.some.inj (hexact.symm.trans (h.inodeByPath_eq_some_iff.2 hj))
      · exact absurd hi (hno _)

/-- **`lookup_in_dir` returns the inode of the node that the path leads to**
    from the parent, whose index it truncates. -/
theorem lookupInDir_eq_ok_iff (h : obj.IntoRofs E fs) {p inode : UInt64} {path : Str} :
    fs.lookupInDir E p path = .ok inode ↔
      ∃ j, fs.Leads ((p - C.inodeRoot).toNat % 2 ^ 32) (normalizePath C path) j ∧
        inode = UInt64.ofNat j + C.inodeRoot := by
  have hparent : (p - C.inodeRoot).toUInt32.toNat = (p - C.inodeRoot).toNat % 2 ^ 32 :=
    UInt64.toNat_toUInt32 _
  have h32 := h.flattened.2.length_lt
  rw [← hparent]
  unfold Rofs.lookupInDir
  dsimp only
  rcases hi : fs.inodeByPathIgnoreAsciiCase E (p - C.inodeRoot).toUInt32 (normalizePath C path)
    with _ | i
  · refine ⟨nofun, ?_⟩
    rintro ⟨j, hj, -⟩
    obtain ⟨cs, hcs⟩ := hj.reaches
    obtain ⟨j', rfl⟩ := hcs.exists_u32 h32
    have hsome := h.ignoreAsciiCase_eq_some_iff.2 hj
    rw [hi] at hsome
    cases hsome
  · have hlead := h.ignoreAsciiCase_eq_some_iff.1 hi
    have hto : i.toUInt64 = UInt64.ofNat i.toNat := by
      rw [← UInt64.toNat_inj, UInt32.toNat_toUInt64, UInt64.toNat_ofNat']
      have := i.toNat_lt
      omega
    dsimp only
    constructor
    · intro hok
      exact ⟨_, hlead, by rw [← hto]; exact (Except.ok.inj hok).symm⟩
    · rintro ⟨j, hj, rfl⟩
      obtain ⟨cs, hcs⟩ := hj.reaches
      obtain ⟨j', rfl⟩ := hcs.exists_u32 h32
      have hsome := h.ignoreAsciiCase_eq_some_iff.2 hj
      obtain rfl : i = j' := Option.some.inj (hi.symm.trans hsome)
      rw [hto]

end RofsObject.IntoRofs

/-! ## Inodes that do not exist -/

namespace Rofs
variable {C : Config} {T : Type} {E : Eytzinger} {obj : RofsObject C T} {fs : Rofs C T}

variable (E) in
/-- What `lookup_in_dir` returns exists, lies below the parent, and the parent
    exists as well. -/
structure LookupExists (fs : Rofs C T) (p : UInt64) (path : Str) : Prop where
  ok : ∀ i, fs.lookupInDir E p path = .ok i → (∃ e, fs.entry p = .ok e) ∧
    (∃ e, fs.entry i = .ok e) ∧
    ∃ cs, fs.Reaches (p - C.inodeRoot).toNat cs (i - C.inodeRoot).toNat
  notFound : fs.entry p = .error .notFound → fs.lookupInDir E p path = .error .notFound

/-- One lookup is from and to what exists if the parent exists, or if the path leads
    nowhere. -/
theorem lookupExists_iff_leads (h : obj.IntoRofs E fs) {p : UInt64} {path : Str} :
    fs.LookupExists E p path ↔ (∃ e, fs.entry p = .ok e) ∨
      ¬ ∃ j, fs.Leads ((p - C.inodeRoot).toNat % 2 ^ 32) (normalizePath C path) j := by
  have h32 := h.flattened.2.length_lt
  constructor
  · intro hexists
    by_contra hno
    obtain ⟨hp, hlead⟩ := not_or.1 hno
    obtain ⟨j, hj⟩ := not_not.1 hlead
    have hok := h.lookupInDir_eq_ok_iff.2 ⟨j, hj, rfl⟩
    exact hp (hexists.ok _ hok).1
  · rintro (hp | hlead)
    · have hlt := entry_eq_ok_iff.1 hp
      refine ⟨fun i hi => ?_, fun hnone => absurd hp (entry_eq_notFound_iff.1 hnone)⟩
      obtain ⟨j, hj, rfl⟩ := h.lookupInDir_eq_ok_iff.1 hi
      rw [Nat.mod_eq_of_lt (hlt.trans h32)] at hj
      obtain ⟨cs, hcs⟩ := hj.reaches
      have hjlt := hcs.lt hlt
      have hindex : (UInt64.ofNat j + C.inodeRoot - C.inodeRoot).toNat = j := by
        rw [UInt64.add_sub_cancel, UInt64.toNat_ofNat']
        omega
      exact ⟨hp, entry_eq_ok_iff.2 (by rwa [hindex]), cs, by rwa [hindex]⟩
    · have hnone : fs.lookupInDir E p path = .error .notFound := by
        rcases hl : fs.lookupInDir E p path with e | i
        · unfold lookupInDir at hl
          dsimp only at hl
          split at hl
          · cases hl
          · exact hl.symm ▸ rfl
        · obtain ⟨j, hj, -⟩ := h.lookupInDir_eq_ok_iff.1 hl
          exact absurd ⟨j, hj⟩ hlead
      refine ⟨fun i hi => ?_, fun _ => hnone⟩
      rw [hnone] at hi
      cases hi

/-- The name of a child leads to it, unless it is `".."`. -/
theorem leads_child (h : obj.IntoRofs E fs) {i k : ℕ} {child : Node} (howns : fs.Owns i k)
    (hchild : fs.nodes[k]? = some child) (hne : fs.nodeName child ≠ ['.', '.']) :
    HasComponents C (fs.nodeName child) ∧ fs.Leads i (normalizePath C (fs.nodeName child)) k := by
  obtain ⟨node, r, hnode, hr, hin⟩ := id howns
  obtain ⟨s, hs, hshows⟩ := h.exists_branch hnode hr
  obtain ⟨child', c, t, hchild', hget, hat, -⟩ := hshows.child hs hr hin
  obtain rfl : child = child' := Option.some.inj (hchild.symm.trans hchild')
  obtain rfl := nodeName_of_nameAt hat
  have hname := (hs.get hget).1
  have hcomponents := components_normalizePath_name hname hne
  refine ⟨⟨?_, ?_⟩, Or.inl ?_⟩
  · rw [hcomponents]
    exact List.cons_ne_nil _ _
  · rw [normalizePath_name hname hne, hname.lower, ← normalizePath_name hname hne, hcomponents]
    exact List.cons_ne_nil _ _
  · rw [hcomponents]
    exact .step howns hchild .refl

/-- If a letter is a separator in lowercase only, another path leads to a child of this
    name, or to something else. -/
theorem leads_dots {x : Char} (hdot : '.' ∉ C.separators) (hx : x ∉ C.separators)
    (hlow : x.toLower ∈ C.separators) {i k : ℕ} {child : Node} (howns : fs.Owns i k)
    (hchild : fs.nodes[k]? = some child) (hname : fs.nodeName child = ['.', '.']) :
    HasComponents C ['.', x, '.', '.'] ∧ ∃ j, fs.Leads i (normalizePath C ['.', x, '.', '.']) j := by
  obtain ⟨hpieces, hnorm⟩ := normalizePath_dots hdot hx
  have hlower := filePath_dots hdot hx hlow
  rw [RofsObject.filePath_eq] at hlower
  refine ⟨⟨?_, ?_⟩, ?_⟩
  · rw [hnorm, components, hpieces]
    simp
  · rw [hlower]
    exact List.cons_ne_nil _ _
  · by_cases hexact : ∃ j, fs.Reaches i (components C (normalizePath C ['.', x, '.', '.'])) j
    · obtain ⟨j, hj⟩ := hexact
      exact ⟨j, Or.inl hj⟩
    · refine ⟨k, Or.inr ⟨not_exists.1 hexact, ?_⟩⟩
      rw [hlower, ← hname]
      exact .step howns hchild .refl

/-- Some path with components leads from an index with children somewhere, in a
    filesystem of a built object. -/
theorem exists_leads {n : ℕ} (hbuilt : RofsObject.Built n obj) (hn : 0 < n) (h : obj.IntoRofs E fs) {i k : ℕ}
    (howns : fs.Owns i k) : ∃ path, HasComponents C path ∧ ∃ j, fs.Leads i (normalizePath C path) j := by
  obtain ⟨node, r, hnode, hr, hin⟩ := id howns
  obtain ⟨s, hs, hshows⟩ := h.exists_branch hnode hr
  obtain ⟨child, -, -, hchild, -⟩ := hshows.child hs hr hin
  by_cases hname : fs.nodeName child = ['.', '.']
  · obtain ⟨hdot, hlower⟩ := not_or.1 fun hC => hbuilt.nodeName_ne_dots hn h hC child (List.mem_of_getElem? hchild) hname
    obtain ⟨x, hx⟩ := not_forall.1 hlower
    obtain ⟨hlow, hx⟩ := Classical.not_imp.1 hx
    obtain ⟨hcomponents, hleads⟩ := leads_dots hdot hx hlow howns hchild hname
    exact ⟨_, hcomponents, hleads⟩
  · obtain ⟨hcomponents, hleads⟩ := leads_child h howns hchild hname
    exact ⟨_, hcomponents, k, hleads⟩

/-- From an index without children, only a path without components leads anywhere. -/
theorem not_leads_of_no_child {i : ℕ} (hno : ∀ k, ¬ fs.Owns i k) {path : Str} (hpath : HasComponents C path) :
    ¬ ∃ j, fs.Leads i (normalizePath C path) j := by
  have hreach : ∀ {cs : List Str} {j : ℕ}, cs ≠ [] → ¬ fs.Reaches i cs j := by
    intro cs j hcs hreach
    cases hreach with
    | refl => exact hcs rfl
    | step howns _ _ => exact hno _ howns
  rintro ⟨j, hexact | ⟨-, hlower⟩⟩
  · exact hreach hpath.1 hexact
  · exact hreach hpath.2 hlower

/-- **When lookup is only from and to what exists**: for all paths, if the parent
    exists; for those with components, also if there is nothing below the node with
    its truncated index.  If there is no such node, it is so for these paths only. -/
theorem lookupExists_iff (h : obj.IntoRofs E fs) {p : UInt64} :
    ((∀ path, fs.LookupExists E p path) ↔ (p - C.inodeRoot).toNat < fs.nodes.length) ∧
    (∀ n, 0 < n → RofsObject.Built n obj →
      ((∀ path, HasComponents C path → fs.LookupExists E p path) ↔
        (p - C.inodeRoot).toNat < fs.nodes.length ∨ ∀ k, ¬ fs.Owns ((p - C.inodeRoot).toNat % 2 ^ 32) k)) ∧
    (fs.nodes.length ≤ (p - C.inodeRoot).toNat % 2 ^ 32 →
      ∀ path, fs.LookupExists E p path ↔ HasComponents C path) := by
  refine ⟨⟨fun hall => ?_, fun hp path => ?_⟩, fun n hn hbuilt => ⟨fun hall => ?_, ?_⟩, fun hnode path => ?_⟩
  · -- the empty path leads from every index to itself
    refine entry_eq_ok_iff.1 (((lookupExists_iff_leads h).1 (hall [])).resolve_right (not_not.2 ?_))
    exact ⟨_, Or.inl (by rw [components_normalizePath_nil]; exact .refl)⟩
  · exact (lookupExists_iff_leads h).2 (Or.inl (entry_eq_ok_iff.2 hp))
  · refine or_iff_not_imp_left.2 fun hp k howns => ?_
    obtain ⟨path, hcomponents, hleads⟩ := exists_leads hbuilt hn h howns
    rcases (lookupExists_iff_leads h).1 (hall _ hcomponents) with hexists | hnone
    · exact hp (entry_eq_ok_iff.1 hexists)
    · exact hnone hleads
  · rintro (hp | hno) path hpath
    · exact (lookupExists_iff_leads h).2 (Or.inl (entry_eq_ok_iff.2 hp))
    · exact (lookupExists_iff_leads h).2 (Or.inr (not_leads_of_no_child hno hpath))
  · have hp : ¬ ∃ e, fs.entry p = .ok e := by
      rw [entry_eq_ok_iff, not_lt]
      exact hnode.trans (Nat.mod_le _ _)
    rw [lookupExists_iff_leads h, or_iff_right hp, leads_of_no_node hnode, not_or]
    rfl

/-- The object of one file, and its filesystem. -/
def oneFile : RofsObject DefaultConfig ℕ where
  root := .cons [] (.branch (.cons "a".toList (.leaf 0) .nil)) .nil
  files := [0]
  files_lt := by decide
  wf := .inr ⟨.cons "a".toList (.leaf 0) .nil, rfl,
    @RofsObject.isName_filePath _ "a".toList _ (by decide) (by decide), by decide, Nat.zero_lt_one, trivial⟩

def oneFileRofs : Rofs DefaultConfig ℕ where
  nodes := [⟨.dir 1 1, 0⟩, ⟨.file 0, 1⟩]
  files := [0]
  names := [0, 1, 97]

/-- Below the root, which exists; below an index that is truncated to that of the
    file, which has no children; and below one that is not that of a node. -/
theorem lookupExists_oneFile : RofsObject.new [("a".toList, 0)] = some oneFile ∧
    oneFile.IntoRofs Eytzinger.layout oneFileRofs ∧
    (∀ path, oneFileRofs.LookupExists Eytzinger.layout 1 path) ∧
    (∀ path, HasComponents DefaultConfig path → oneFileRofs.LookupExists Eytzinger.layout 0x100000002 path) ∧
    oneFileRofs.LookupExists Eytzinger.layout 0 "x".toList := by
  have hnew : RofsObject.new [("a".toList, 0)] = some oneFile := rfl
  have hfs : oneFile.IntoRofs Eytzinger.layout oneFileRofs := ⟨oneFile.root, .refl _, rfl⟩
  refine ⟨hnew, hfs, (lookupExists_iff hfs).1.2 (by decide),
    ((lookupExists_iff hfs).2.1 1 Nat.one_pos (.new hnew)).2 (.inr ?_),
    ((lookupExists_iff hfs).2.2 (by decide) _).2 ⟨by decide, by decide⟩⟩
  rintro k ⟨node, r, hnode, hr, -⟩
  cases hnode
  cases hr

/-- In the filesystem of one file, the empty path is found in the inode 0, which
    does not exist, and the file in an inode whose index is `2 ^ 32`. -/
theorem not_lookupExists : RofsObject.new [("a".toList, 0)] = some oneFile ∧
    oneFile.IntoRofs Eytzinger.layout oneFileRofs ∧ ¬ oneFileRofs.LookupExists Eytzinger.layout 0 [] ∧
      ¬ oneFileRofs.LookupExists Eytzinger.layout 0x100000001 "a".toList := by
  refine ⟨rfl, ⟨oneFile.root, .refl _, rfl⟩, fun hexists => ?_, fun hexists => ?_⟩
  · have hok : oneFileRofs.lookupInDir Eytzinger.layout 0 [] = .ok 0x100000000 := by decide
    cases hok.symm.trans (hexists.notFound rfl)
  · -- the truncated index is that of the root
    have hok : oneFileRofs.lookupInDir Eytzinger.layout 0x100000001 "a".toList = .ok 2 := by decide
    cases hok.symm.trans (hexists.notFound rfl)

end Rofs

end Fsvfs
