/-
  Reading a listing page by page.

  The entries of a listing have cookies that increase.  A reader resumes at the
  cookie of the last entry that it was given, and each page that it is given
  continues what is left there (`after`).

  * `after_resume`: a page takes what it gives off what is left;
  * `Pages.reads`: the pages give the entries in order, each once, and a page
    that is empty comes after all of them.
-/
import Mathlib.Data.List.Basic
import Mathlib.Data.List.Infix

namespace Fsvfs.Lib

variable {α β : Type*}

/-- Entries whose cookies increase. -/
structure Listing (α : Type*) where
  entries : List α
  cookie : α → ℕ
  increasing : entries.Pairwise fun a b => cookie a < cookie b

/-- What some pages give; a page that is `none` gives nothing. -/
def given (pages : List (Option (List α))) : List α := pages.flatMap fun page => page.getD []

@[simp] theorem given_nil : given ([] : List (Option (List α))) = [] := rfl

@[simp] theorem given_cons (page : Option (List α)) (pages : List (Option (List α))) :
    given (page :: pages) = page.getD [] ++ given pages := rfl

theorem given_map (f : α → β) (pages : List (Option (List α))) :
    given (pages.map (Option.map (List.map f))) = (given pages).map f := by
  induction pages with
  | nil => rfl
  | cons page pages ih => cases page <;> simp [ih]

/-- Counting from one, the entries after the `c`-th are those with a greater
    number. -/
theorem filter_lt_eq_drop {l : List α} {f : α → ℕ} (h : l.map f = List.range' 1 l.length) (c : ℕ) :
    (l.filter fun a => c < f a) = l.drop c := by
  suffices hgen : ∀ (l : List α) (k : ℕ), l.map f = List.range' k l.length →
      (l.filter fun a => c < f a) = l.drop (c + 1 - k) from hgen l 1 h
  clear h
  intro l
  induction l with
  | nil => intro k _; simp
  | cons a l ih =>
    intro k h
    rw [List.map_cons, List.length_cons, List.range'_succ, List.cons.injEq] at h
    obtain ⟨ha, hl⟩ := h
    by_cases hc : c < k
    · have h₁ : c + 1 - k = 0 := by omega
      have h₂ : c + 1 - (k + 1) = 0 := by omega
      rw [List.filter_cons_of_pos (by simpa [ha] using hc), ih (k + 1) hl, h₁, h₂, List.drop_zero,
        List.drop_zero]
    · have h₁ : c + 1 - k = c + 1 - (k + 1) + 1 := by omega
      rw [List.filter_cons_of_neg (by simpa [ha] using hc), ih (k + 1) hl, h₁, List.drop_succ_cons]

/-- What reading a list page by page gives: its entries in order, each once; all
    of them before a page that is empty, and in as many pages as there are
    entries. -/
structure Reads (l : List α) (pages : List (Option (List α))) : Prop where
  in_order : given pages <+: l
  all_of_nil : ∀ i, pages[i]? = some (some []) → given (pages.take i) = l
  all_of_enough : l.length ≤ (pages.filter Option.isSome).length → given pages = l

theorem Reads.map {l : List α} {pages : List (Option (List α))} (h : Reads l pages) (f : α → β) :
    Reads (l.map f) (pages.map (Option.map (List.map f))) := by
  refine ⟨?_, fun i hi => ?_, fun hlen => ?_⟩
  · rw [given_map]
    exact h.in_order.map f
  · have hnil : pages[i]? = some (some []) := by
      rw [List.getElem?_map] at hi
      rcases hp : pages[i]? with _ | _ | _ | ⟨a, page⟩ <;> rw [hp] at hi <;> simp_all
    rw [← List.map_take, given_map, h.all_of_nil i hnil]
  · rw [given_map, h.all_of_enough]
    rw [List.filter_map, List.length_map, List.length_map] at hlen
    have hfilter : (Option.isSome ∘ Option.map (List.map f)) = Option.isSome := by
      funext page
      cases page <;> rfl
    rwa [hfilter] at hlen

namespace Listing
variable (L : Listing α)

/-- What is left after a cookie. -/
def after (c : ℕ) : List α := L.entries.filter fun a => c < L.cookie a

/-- The cookie of the last entry of a page, at which the reader resumes. -/
def resume (c : ℕ) (page : List α) : ℕ := (page.getLast?.map L.cookie).getD c

/-- The pages that a reader is given from a cookie on, and where it ends.  A
    page is `none` if it gives nothing although something may be left. -/
inductive Pages : ℕ → List (Option (List α)) → ℕ → Prop
  | nil {c : ℕ} : Pages c [] c
  | none {c c' : ℕ} {pages : List (Option (List α))} : Pages c pages c' → Pages c (none :: pages) c'
  | some {c c' : ℕ} {page : List α} {pages : List (Option (List α))} :
      page <+: L.after c → (page = [] → L.after c = []) → Pages (L.resume c page) pages c' →
        Pages c (some page :: pages) c'

/-- The entries that satisfy `p`. -/
def filter (p : α → Bool) : Listing α where
  entries := L.entries.filter p
  cookie := L.cookie
  increasing := L.increasing.sublist List.filter_sublist

theorem after_filter (p : α → Bool) (c : ℕ) : (L.filter p).after c = (L.after c).filter p := by
  rw [after, after, filter, List.filter_filter, List.filter_filter]
  exact List.filter_congr fun a _ => Bool.and_comm _ _

/-- A list with its numbers from one on. -/
def ofNumbered (l : List α) (f : α → ℕ) (h : l.map f = List.range' 1 l.length) : Listing α where
  entries := l
  cookie := f
  increasing := by
    rw [← @List.pairwise_map _ _ f (· < ·), h]
    exact List.pairwise_lt_range'

theorem after_ofNumbered {l : List α} {f : α → ℕ} (h : l.map f = List.range' 1 l.length) (c : ℕ) :
    (ofNumbered l f h).after c = l.drop c :=
  filter_lt_eq_drop h c

variable {L}

/-- **What is left after a page.** -/
theorem after_resume {c : ℕ} {page rest : List α} (h : L.after c = page ++ rest) :
    L.after (L.resume c page) = rest := by
  rcases List.eq_nil_or_concat' page with rfl | ⟨init, a, rfl⟩
  · simpa [resume] using h
  have hresume : L.resume c (init ++ [a]) = L.cookie a := by simp [resume]
  have ha : c < L.cookie a := by
    have hmem : a ∈ L.after c := by rw [h]; simp
    simpa using (List.mem_filter.1 hmem).2
  -- past the cookie of `a` there is what is past it in what was left at `c`
  have hfilter : L.after (L.cookie a) = (L.after c).filter fun b => L.cookie a < L.cookie b := by
    rw [after, after, List.filter_filter]
    refine List.filter_congr fun b _ => ?_
    have himp : L.cookie a < L.cookie b → c < L.cookie b := ha.trans
    by_cases hb : L.cookie a < L.cookie b
    · simp [hb, himp hb]
    · simp [hb]
  have hpairwise : (init ++ [a] ++ rest).Pairwise fun a b => L.cookie a < L.cookie b := by
    rw [← h]
    exact L.increasing.sublist List.filter_sublist
  obtain ⟨hinit, -, hrest⟩ := List.pairwise_append.1 hpairwise
  have hle : ∀ b ∈ init ++ [a], ¬ L.cookie a < L.cookie b := by
    intro b hb
    rcases List.mem_append.1 hb with hb | hb
    · exact ((List.pairwise_append.1 hinit).2.2 b hb a (by simp)).le.not_gt
    · rw [List.mem_singleton.1 hb]
      exact lt_irrefl _
  rw [hresume, hfilter, h, List.filter_append, List.filter_eq_nil_iff.2 (by simpa using hle),
    List.nil_append, List.filter_eq_self]
  intro b hb
  simpa using hrest a (by simp) b hb

namespace Pages

theorem append {c c' c'' : ℕ} {pages pages' : List (Option (List α))} (h : L.Pages c pages c')
    (h' : L.Pages c' pages' c'') : L.Pages c (pages ++ pages') c'' := by
  induction h with
  | nil => exact h'
  | none _ ih => exact .none (ih h')
  | some hpage hend _ ih => exact .some hpage hend (ih h')

theorem after_eq {c c' : ℕ} {pages : List (Option (List α))} (h : L.Pages c pages c') :
    L.after c = given pages ++ L.after c' := by
  induction h with
  | nil => rfl
  | none _ ih => exact ih
  | some hpage _ _ ih =>
    obtain ⟨rest, hrest⟩ := hpage
    rw [after_resume hrest.symm] at ih
    rw [← hrest, ih, given_cons, Option.getD_some, List.append_assoc]

theorem given_of_nil {c c' : ℕ} {pages pages' : List (Option (List α))}
    (h : L.Pages c (pages ++ .some [] :: pages') c') : given pages = L.after c := by
  induction pages generalizing c with
  | nil =>
    cases h with
    | some _ hend _ => exact (hend rfl).symm
  | cons page pages ih =>
    cases h with
    | none h => exact ih h
    | some hpage _ h =>
      obtain ⟨rest, hrest⟩ := hpage
      rw [given_cons, Option.getD_some, ih h, after_resume hrest.symm, hrest]

theorem given_of_enough {c c' : ℕ} {pages : List (Option (List α))} (h : L.Pages c pages c')
    (hlen : (L.after c).length ≤ (pages.filter Option.isSome).length) : given pages = L.after c := by
  induction h with
  | nil => exact (List.length_eq_zero_iff.1 (Nat.le_zero.1 hlen)).symm
  | none _ ih => exact ih hlen
  | @some c c' page pages hpage hend h ih =>
    obtain ⟨rest, hrest⟩ := hpage
    have hafter := after_resume hrest.symm
    rcases page with _ | ⟨a, page⟩
    · have hnil := hend rfl
      have hall := h.after_eq
      rw [hafter, show rest = [] by simpa [hnil] using hrest] at hall
      rw [given_cons, (List.append_eq_nil_iff.1 hall.symm).1, hnil]
      rfl
    · have hle : rest.length ≤ (pages.filter Option.isSome).length := by
        rw [← hrest] at hlen
        simp only [List.length_append, List.length_cons, List.filter_cons, Option.isSome_some,
          if_true] at hlen
        omega
      rw [given_cons, Option.getD_some, ih (by rwa [hafter]), hafter, hrest]

/-- **The pages read what is left at the start.** -/
theorem reads {c c' : ℕ} {pages : List (Option (List α))} (h : L.Pages c pages c') :
    Reads (L.after c) pages := by
  refine ⟨⟨_, h.after_eq.symm⟩, fun i hi => ?_, h.given_of_enough⟩
  obtain ⟨hlt, hget⟩ := List.getElem?_eq_some_iff.1 hi
  have hsplit : pages = pages.take i ++ .some [] :: pages.drop (i + 1) := by
    rw [← hget, List.getElem_cons_drop, List.take_append_drop]
  rw [hsplit] at h
  exact h.given_of_nil

end Pages

end Listing

end Fsvfs.Lib
