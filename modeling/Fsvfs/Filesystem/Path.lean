/-
  Paths of the read-only filesystem (`src/filesystem.rs`, `src/cow.rs`): their
  components, `normalize_path`, and ASCII lowercasing.

  A Rust `str` is the list of its characters (`Str`); `Str.bytes` is its UTF-8
  encoding.  `norm` is the reference normal form of a path: its components
  with `""` and `"."` dropped, `".."` removing the component before it, in
  ASCII lowercase.

  * `components_normalizePath`: splitting the normalised path gives the
    components with `".."` resolved, for separators that contain `'/'`;
  * `components_lower`: if letters are separators in both cases or in neither,
    lowercasing commutes with splitting, so that building and lookup both see
    `norm` (`components_lower_normalizePath`).
-/
import Mathlib.Algebra.Order.Ring.Nat
import Mathlib.Data.List.Infix
import Mathlib.Data.List.Basic
import Mathlib.Tactic.Common

namespace Fsvfs

/-- A Rust `str`. -/
abbrev Str := List Char

/-- The UTF-8 bytes of a `str`. -/
def Str.bytes (s : Str) : List UInt8 := s.flatMap String.utf8EncodeChar

/-- `str::from_utf8_unchecked`; what it makes of other bytes is never used. -/
def Str.fromUtf8Unchecked (b : List UInt8) : Str :=
  ((b.toByteArray.utf8Decode?).map Array.toList).getD []

/-- The constants of a `Config`. -/
structure Config where
  /-- `SEPARATORS` -/
  separators : List Char := ['/']
  /-- `INODE_ROOT` -/
  inodeRoot : UInt64 := 1

def DefaultConfig : Config := {}

/-- `DvdbndConfig`. -/
def DvdbndConfig : Config := { separators := ['/', '\\'] }

/-- `Cow::to_ascii_lowercase`: the string in lowercase, and whether that
    changed it. -/
def toAsciiLowercase (s : Str) : Str × Bool :=
  let hadUppercase := s.any Char.isUpper
  (if hadUppercase then s.map Char.toLower else s, hadUppercase)

section
variable (C : Config)

/-- `str::split` at the separators. -/
def splitPath (path : Str) : List Str := path.splitOnP (fun c => decide (c ∈ C.separators))

/-- `components`. -/
def components (path : Str) : List Str :=
  (splitPath C path).filter (fun c => decide (c ≠ [] ∧ c ≠ ['.']))

/-- One component of the loop of `normalize_path`. -/
def pushComponent (cs : List Str) (c : Str) : List Str :=
  if c = [] ∨ c = ['.'] then cs else if c = ['.', '.'] then cs.dropLast else cs ++ [c]

/-- `normalize_path`. -/
def normalizePath (path : Str) : Str :=
  if path = [] then ['.']
  else if ¬ ['.', '.'] <:+: path then path
  else ['/'].intercalate ((splitPath C path).foldl pushComponent [])

/-- The components of a path with `".."` resolved. -/
def resolved (path : Str) : List Str := (splitPath C path).foldl pushComponent []

/-- The normal form of a path. -/
def norm (path : Str) : List Str := (resolved C path).map (·.map Char.toLower)

end

/-! ## Strings -/

theorem Str.toByteArray_bytes (s : Str) : s.bytes.toByteArray = s.utf8Encode := rfl

@[simp] theorem Str.fromUtf8Unchecked_bytes (s : Str) : Str.fromUtf8Unchecked s.bytes = s := by
  simp [Str.fromUtf8Unchecked, Str.toByteArray_bytes]

theorem Str.bytes_injective : Function.Injective Str.bytes := fun s t h => by
  rw [← Str.fromUtf8Unchecked_bytes s, h, Str.fromUtf8Unchecked_bytes]

@[simp] theorem Str.bytes_inj {s t : Str} : s.bytes = t.bytes ↔ s = t := Str.bytes_injective.eq_iff

theorem isUpper_iff {c : Char} : c.isUpper = true ↔ 65 ≤ c.val.toNat ∧ c.val.toNat ≤ 90 := by
  have h : c.isUpper = decide ('A'.val ≤ c.val ∧ c.val ≤ 'Z'.val) := rfl
  rw [h, decide_eq_true_iff]
  rfl

theorem isLower_iff {c : Char} : c.isLower = true ↔ 97 ≤ c.val.toNat ∧ c.val.toNat ≤ 122 := by
  have h : c.isLower = (decide ('a'.val ≤ c.val) && decide (c.val ≤ 'z'.val)) := rfl
  rw [h, Bool.and_eq_true, decide_eq_true_iff, decide_eq_true_iff]
  rfl

theorem toLower_of_not_isUpper {c : Char} (h : c.isUpper = false) : c.toLower = c := by
  have h' : ¬ (c.val ≥ 'A'.val ∧ c.val ≤ 'Z'.val) := of_decide_eq_false h
  exact dif_neg h'

/-- An uppercase letter becomes a lowercase one. -/
theorem isLower_toLower {c : Char} (h : c.isUpper = true) : c.toLower.isLower = true := by
  have h' : c.val ≥ 'A'.val ∧ c.val ≤ 'Z'.val := of_decide_eq_true h
  have hv : c.toLower.val = c.val + ('a'.val - 'A'.val) := congrArg Char.val (dif_pos h')
  have hd : ('a'.val - 'A'.val).toNat = 32 := rfl
  rw [isUpper_iff] at h
  rw [isLower_iff, hv, UInt32.toNat_add, hd]
  omega

/-- Only `d` itself becomes `d` when `d` is not a letter. -/
theorem toLower_eq_iff {c d : Char} (hd : d.isAlpha = false) : c.toLower = d ↔ c = d := by
  have hd' : d.isUpper = false ∧ d.isLower = false := Bool.or_eq_false_iff.1 hd
  cases h : c.isUpper with
  | false => rw [toLower_of_not_isUpper h]
  | true =>
    constructor
    · rintro rfl
      rw [isLower_toLower h] at hd'; cases hd'.2
    · rintro rfl
      rw [h] at hd'; cases hd'.1

theorem isUpper_toLower (c : Char) : c.toLower.isUpper = false := by
  cases h : c.isUpper with
  | false => rw [toLower_of_not_isUpper h, h]
  | true =>
    have hl := isLower_iff.1 (isLower_toLower h)
    rw [Bool.eq_false_iff]
    intro hu
    have hu' := isUpper_iff.1 hu
    omega

theorem toLower_toLower (c : Char) : c.toLower.toLower = c.toLower :=
  toLower_of_not_isUpper (isUpper_toLower c)

/-- Lowercasing in one step, whether or not it finds an uppercase letter. -/
theorem toAsciiLowercase_fst (s : Str) : (toAsciiLowercase s).1 = s.map Char.toLower := by
  unfold toAsciiLowercase
  by_cases h : s.any Char.isUpper = true
  · simp [h]
  · have hs : ∀ c ∈ s, c.toLower = c := fun c hc => by
      refine toLower_of_not_isUpper ?_
      by_contra hu
      exact h (List.any_eq_true.2 ⟨c, hc, by simpa using hu⟩)
    simp only [h, Bool.false_eq_true, if_false]
    exact ((List.map_congr_left hs).trans s.map_id).symm

/-- The same characters in lowercase. -/
abbrev Str.lower (s : Str) : Str := s.map Char.toLower

theorem Str.lower_eq_singleton_iff {s : Str} {d : Char} (hd : d.isAlpha = false) :
    s.lower = [d] ↔ s = [d] := by
  rcases s with _ | ⟨c, _ | ⟨c', s⟩⟩ <;> simp [toLower_eq_iff hd]

theorem utf8Size_toLower (c : Char) : c.toLower.utf8Size = c.utf8Size := by
  cases h : c.isUpper with
  | false => rw [toLower_of_not_isUpper h]
  | true =>
    have hl := isLower_iff.1 (isLower_toLower h)
    have hu := isUpper_iff.1 h
    have hsmall : ∀ d : Char, d.val.toNat ≤ 127 → d.utf8Size = 1 := by
      intro d hd
      have hle : d.val ≤ 127 := by simpa [UInt32.le_iff_toNat_le] using hd
      simp [Char.utf8Size, hle]
    rw [hsmall _ (by omega), hsmall _ (by omega)]

theorem Str.length_bytes (s : Str) : s.bytes.length = (s.map Char.utf8Size).sum := by
  simp [Str.bytes, List.length_flatMap]

@[simp] theorem Str.length_bytes_lower (s : Str) : s.lower.bytes.length = s.bytes.length := by
  simp [Str.length_bytes, Function.comp_def, utf8Size_toLower]

/-! ## Splitting -/

section
variable {C : Config}

theorem splitPath_nil : splitPath C [] = [[]] := List.splitOnP_nil

theorem splitPath_cons_sep {x : Char} (hx : x ∈ C.separators) (path : Str) :
    splitPath C (x :: path) = [] :: splitPath C path := by
  simp [splitPath, List.splitOnP_cons_eq_if_modifyHead, hx]

theorem splitPath_cons {x : Char} (hx : x ∉ C.separators) (path : Str) :
    splitPath C (x :: path) = (splitPath C path).modifyHead (x :: ·) := by
  simp [splitPath, List.splitOnP_cons_eq_if_modifyHead, hx]

theorem splitPath_of_forall {path : Str} (h : ∀ x ∈ path, x ∉ C.separators) :
    splitPath C path = [path] :=
  List.splitOnP_eq_singleton fun x hx => by simpa using h x hx

/-- The first piece of a path is a prefix of it. -/
theorem splitPath_eq_cons (C : Config) : ∀ path : Str, ∃ d ds, splitPath C path = d :: ds ∧ d <+: path
  | [] => ⟨[], [], splitPath_nil, List.nil_prefix⟩
  | x :: path => by
    by_cases hx : x ∈ C.separators
    · exact ⟨_, _, splitPath_cons_sep hx path, List.nil_prefix⟩
    · obtain ⟨d, ds, hd, hp⟩ := splitPath_eq_cons C path
      exact ⟨x :: d, ds, by rw [splitPath_cons hx, hd]; rfl, by simpa using hp⟩

/-- The pieces of a path lie in it and contain no separator. -/
theorem mem_splitPath {path c : Str} (h : c ∈ splitPath C path) :
    (∀ x ∈ c, x ∉ C.separators) ∧ c <:+: path := by
  induction path generalizing c with
  | nil => simp [splitPath_nil] at h; subst h; simp
  | cons x path ih =>
    have hs : path <:+ x :: path := List.suffix_cons x path
    by_cases hx : x ∈ C.separators
    · rw [splitPath_cons_sep hx, List.mem_cons] at h
      rcases h with rfl | h
      · simp
      · exact ⟨(ih h).1, (ih h).2.trans hs.isInfix⟩
    · obtain ⟨d, ds, hd, hp⟩ := splitPath_eq_cons C path
      rw [splitPath_cons hx, hd, List.modifyHead_cons, List.mem_cons] at h
      rcases h with rfl | h
      · have := (ih (c := d) (by simp [hd])).1
        exact ⟨by simpa [hx] using this, (List.IsPrefix.isInfix (by simpa using hp))⟩
      · have := ih (c := c) (by simp [hd, h])
        exact ⟨this.1, this.2.trans hs.isInfix⟩

/-- An ASCII letter is a separator in both cases or in neither. -/
def Config.CaseClosed (C : Config) : Prop := ∀ x : Char, x.toLower ∈ C.separators ↔ x ∈ C.separators

theorem Config.caseClosed_of_letterFree (h : ∀ c ∈ C.separators, c.isAlpha = false) :
    C.CaseClosed := fun x =>
  ⟨fun hx => (toLower_eq_iff (h _ hx)).1 rfl ▸ hx, fun hx => by rwa [(toLower_eq_iff (h _ hx)).2 rfl]⟩

theorem letterFree_defaultConfig : ∀ c ∈ DefaultConfig.separators, c.isAlpha = false := by
  intro c hc
  obtain rfl := List.mem_singleton.1 hc
  rfl

theorem letterFree_dvdbndConfig : ∀ c ∈ DvdbndConfig.separators, c.isAlpha = false := by
  intro c hc
  obtain rfl | rfl := List.mem_pair.1 hc
  · rfl
  · rfl

/-- Lowercasing commutes with splitting when letters are separators in both
    cases. -/
theorem splitPath_lower (hmem : C.CaseClosed) (path : Str) :
    splitPath C path.lower = (splitPath C path).map Str.lower := by
  induction path with
  | nil => simp [splitPath_nil]
  | cons x path ih =>
    by_cases hx : x ∈ C.separators
    · rw [splitPath_cons_sep hx, Str.lower, List.map_cons, splitPath_cons_sep ((hmem x).2 hx), ih]
      rfl
    · obtain ⟨d, ds, hd, -⟩ := splitPath_eq_cons C path
      rw [splitPath_cons hx, Str.lower, List.map_cons, splitPath_cons (by rwa [hmem]), ih, hd]
      rfl

/-- Pieces joined with a separator are split again. -/
theorem splitPath_intercalate (hC : '/' ∈ C.separators) :
    ∀ {cs : List Str}, cs ≠ [] → (∀ c ∈ cs, ∀ x ∈ c, x ∉ C.separators) →
      splitPath C (['/'].intercalate cs) = cs
  | [c], _, h => by
    simpa [List.intercalate] using splitPath_of_forall (h c (by simp))
  | c :: d :: cs, _, h => by
    have ih : splitPath C (['/'].intercalate (d :: cs)) = d :: cs :=
      splitPath_intercalate hC (by simp) fun e he => h e (by simp [he])
    have hj : ['/'].intercalate (c :: d :: cs) = c ++ '/' :: ['/'].intercalate (d :: cs) := by
      simp [List.intercalate]
    rw [hj, splitPath, List.splitOnP_append_cons_of_forall_mem
      (fun x hx => by simpa using h c (by simp) x hx) '/' (by simpa using hC)]
    exact congrArg (c :: ·) ih

/-! ## Normalisation -/

/-- The components of a normalised path: non-empty, neither `"."` nor `".."`,
    and free of separators. -/
structure IsComponent (C : Config) (c : Str) : Prop where
  ne_nil : c ≠ []
  ne_dot : c ≠ ['.']
  ne_dots : c ≠ ['.', '.']
  sep : ∀ x ∈ c, x ∉ C.separators

theorem mem_foldl_pushComponent {P : Str → Prop} : ∀ {l acc : List Str},
    (∀ c ∈ acc, P c) → (∀ c ∈ l, c ≠ [] → c ≠ ['.'] → c ≠ ['.', '.'] → P c) →
      ∀ c ∈ l.foldl pushComponent acc, P c
  | [], _, ha, _ => ha
  | d :: l, acc, ha, hl => by
    refine mem_foldl_pushComponent (l := l) ?_ fun c hc => hl c (by simp [hc])
    intro c hc
    unfold pushComponent at hc
    split_ifs at hc with h1 h2
    · exact ha c hc
    · exact ha c (List.dropLast_subset acc hc)
    · rw [List.mem_append, List.mem_singleton] at hc
      rcases hc with hc | rfl
      · exact ha c hc
      · simp only [not_or] at h1
        exact hl c (by simp) h1.1 h1.2 h2

theorem isComponent_resolved {path c : Str} (h : c ∈ resolved C path) : IsComponent C c :=
  mem_foldl_pushComponent (P := IsComponent C) (by simp)
    (fun d hd h1 h2 h3 => ⟨h1, h2, h3, (mem_splitPath hd).1⟩) c h

/-- Without `".."` among the pieces, resolving only drops `""` and `"."`. -/
theorem foldl_pushComponent : ∀ {l : List Str} (acc : List Str), (∀ c ∈ l, c ≠ ['.', '.']) →
    l.foldl pushComponent acc = acc ++ l.filter (fun c => decide (c ≠ [] ∧ c ≠ ['.']))
  | [], acc, _ => by simp
  | c :: l, acc, h => by
    have hc : c ≠ ['.', '.'] := h c (by simp)
    rw [List.foldl_cons, foldl_pushComponent _ fun d hd => h d (by simp [hd])]
    by_cases hd : c = [] ∨ c = ['.']
    · have : ¬ (c ≠ [] ∧ c ≠ ['.']) := by tauto
      simp [pushComponent, hd, this]
    · have : c ≠ [] ∧ c ≠ ['.'] := by tauto
      simp [pushComponent, this, hc]

theorem filter_resolved {path : Str} :
    (resolved C path).filter (fun c => decide (c ≠ [] ∧ c ≠ ['.'])) = resolved C path := by
  rw [List.filter_eq_self]
  intro c hc
  have := isComponent_resolved hc
  simp [this.ne_nil, this.ne_dot]

/-- **The components of the normalised path are the resolved ones.** -/
theorem components_normalizePath (hC : '/' ∈ C.separators) (path : Str) :
    components C (normalizePath C path) = resolved C path := by
  unfold normalizePath
  split_ifs with h1 h2
  · subst h1
    simp only [components, resolved, splitPath_nil]
    by_cases hd : '.' ∈ C.separators
    · rw [splitPath_cons_sep hd, splitPath_nil]; rfl
    · rw [splitPath_of_forall (by simpa using hd)]; rfl
  · rw [← resolved, components]
    by_cases hr : resolved C path = []
    · simp [hr, List.intercalate, splitPath_nil]
    · rw [splitPath_intercalate hC hr fun c hc => (isComponent_resolved hc).sep, filter_resolved]
  · rw [components, resolved, foldl_pushComponent [] fun c hc => ?_]
    · rfl
    · rintro rfl
      exact h2 (mem_splitPath hc).2

theorem components_lower (hC : C.CaseClosed) (path : Str) :
    components C path.lower = (components C path).map Str.lower := by
  rw [components, splitPath_lower hC, components, List.filter_map]
  congr 1
  refine List.filter_congr fun c _ => ?_
  simp [Str.lower_eq_singleton_iff (show ('.' : Char).isAlpha = false by decide)]

/-- The components a file is stored under are its normal form. -/
theorem components_lower_normalizePath (hC : '/' ∈ C.separators) (hl : C.CaseClosed) (path : Str) :
    components C (normalizePath C path).lower = norm C path := by
  rw [components_lower hl, components_normalizePath hC]; rfl

/-- A component in lowercase is a component. -/
theorem IsComponent.lower (hl : C.CaseClosed) {c : Str} (h : IsComponent C c) :
    IsComponent C c.lower := by
  have hdot : ('.' : Char).isAlpha = false := by decide
  refine ⟨by simpa using h.ne_nil, fun hd => h.ne_dot ((Str.lower_eq_singleton_iff hdot).1 hd),
    fun hd => h.ne_dots ?_, fun x hx => ?_⟩
  · rcases c with _ | ⟨x, _ | ⟨y, _ | ⟨z, c⟩⟩⟩ <;> simp_all [toLower_eq_iff hdot]
  · obtain ⟨y, hy, rfl⟩ := List.mem_map.1 hx
    rw [hl y]
    exact h.sep y hy

end

end Fsvfs
