/-
  The dictionary of a game (`Dictionary::from_dir_and_game` in
  `src/dvdbnd/dict.rs`).

  Reading a file as a string is a parameter (`readToString`).

  * `fromDirAndGame_spec`: the dictionary of an archive is the last one that is
    found, which is a deepest one; the others are not merged with it.
-/
import Fsvfs.Dvdbnd.Dict
import Fsvfs.Dvdbnd.ReadFiles

namespace Fsvfs.Dvdbnd

open Lib Breadth

variable {ε : Type} (readToString : PathBuf → Except ε Str) (game : Str)

/-- Whether the extension of a file is that of a dictionary. -/
def isTxt (file : PathBuf) : Bool :=
  (file.extension.map fun ext => OsStr.eqIgnoreAsciiCase ext [0x74, 0x78, 0x74]).getD false

/-- Whether a file is a dictionary of the game. -/
def isOfGame (file : PathBuf) : Bool := isTxt file && game.lower = file.prefixAndParentToLowercase.2.lower

/-- The loop of `from_dir_and_game`. -/
def collectDict : List (Except ε PathBuf) → (Str → Option Str) → Except ε Dictionary
  | [], byBnd => .ok ⟨byBnd⟩
  | .error e :: _, _ => .error e
  | .ok file :: items, byBnd =>
    if isOfGame game file then do
      let contents ← readToString file
      collectDict items (Function.update byBnd file.prefixAndParentToLowercase.1 (some contents))
    else collectDict items byBnd

/-- `Dictionary::from_dir_and_game`. -/
def Dictionary.fromDirAndGame (readDir : ReadDir ε) (fuel : ℕ) (dir : PathBuf) : Option (Except ε Dictionary) :=
  (recursiveReadFiles readDir fuel dir).map fun files => files.bind fun items =>
    collectDict readToString game items fun _ => none

/-! ## The loop -/

/-- The file of an archive that is found last: the last one of those that are
    dictionaries of the game, and have its name. -/
def lastFile (name : Str) (files : List PathBuf) : Option PathBuf :=
  (files.filter fun file => isOfGame game file && file.prefixAndParentToLowercase.1 = name).getLast?

variable {readToString game}

theorem lastFile_cons (name : Str) (file : PathBuf) (files : List PathBuf) : lastFile game name (file :: files) =
    (lastFile game name files).or
      (if isOfGame game file && file.prefixAndParentToLowercase.1 = name then some file else none) := by
  rw [lastFile, lastFile, List.filter_cons]
  split_ifs
  · rw [List.getLast?_cons]
    rcases (files.filter _).getLast? with _ | last <;> rfl
  · rw [Option.or_none]

theorem of_lastFile {name : Str} {files : List PathBuf} {file : PathBuf} (h : lastFile game name files = some file) :
    file ∈ files ∧ isOfGame game file ∧ file.prefixAndParentToLowercase.1 = name := by
  have hmem := List.mem_of_getLast? h
  simpa [List.mem_filter] using hmem

/-- A run that succeeds has read every dictionary of the game, and the last file of
    an archive counts. -/
theorem collectDict_ok {items : List (Except ε PathBuf)} {byBnd : Str → Option Str} {dict : Dictionary}
    (h : collectDict readToString game items byBnd = .ok dict) : (∀ e, .error e ∉ items) ∧
      (∀ file ∈ items.filterMap Except.toOption, isOfGame game file → ∃ contents, readToString file = .ok contents) ∧
      ∀ name, dict.byBnd name = ((lastFile game name (items.filterMap Except.toOption)).bind fun file =>
        (readToString file).toOption).or (byBnd name) := by
  induction items generalizing byBnd with
  | nil =>
    cases h
    simp [lastFile]
  | cons item items ih =>
    rcases item with e | file
    · cases h
    rw [List.filterMap_cons_some (show Except.toOption (.ok file) = some file from rfl)]
    rw [collectDict] at h
    by_cases hgame : isOfGame game file
    · rw [if_pos hgame] at h
      rcases hread : readToString file with e | contents
      · rw [hread] at h
        cases h
      rw [hread] at h
      obtain ⟨hno, hreadable, hlast⟩ := ih h
      refine ⟨by simpa using hno, List.forall_mem_cons.2 ⟨fun _ => ⟨contents, hread⟩, hreadable⟩, fun name => ?_⟩
      rw [hlast, lastFile_cons, hgame, Bool.true_and, Function.update_apply]
      rcases hfile : lastFile game name (items.filterMap Except.toOption) with _ | file'
      · by_cases hname : file.prefixAndParentToLowercase.1 = name
        · simp [hname, hread, Except.toOption]
        · simp [hname, Ne.symm hname]
      · obtain ⟨hmem, hof, -⟩ := of_lastFile hfile
        obtain ⟨contents', hread'⟩ := hreadable file' hmem hof
        simp [hread', Except.toOption]
    · rw [if_neg hgame] at h
      obtain ⟨hno, hreadable, hlast⟩ := ih h
      refine ⟨by simpa using hno, List.forall_mem_cons.2 ⟨fun hof => absurd hof hgame, hreadable⟩, fun name => ?_⟩
      rw [hlast, lastFile_cons, if_neg (by simp [hgame]), Option.or_none]

/-- A run fails because of the walk, or of a dictionary of the game. -/
theorem collectDict_error {items : List (Except ε PathBuf)} {byBnd : Str → Option Str} {e : ε}
    (h : collectDict readToString game items byBnd = .error e) : .error e ∈ items ∨
      ∃ file ∈ items.filterMap Except.toOption, isOfGame game file ∧ readToString file = .error e := by
  induction items generalizing byBnd with
  | nil => cases h
  | cons item items ih =>
    rcases item with e' | file
    · cases h
      exact .inl List.mem_cons_self
    rw [List.filterMap_cons_some (show Except.toOption (.ok file) = some file from rfl)]
    have hrest : ∀ {byBnd : Str → Option Str}, collectDict readToString game items byBnd = .error e →
        .error e ∈ Except.ok file :: items ∨ ∃ file' ∈ file :: items.filterMap Except.toOption,
          isOfGame game file' ∧ readToString file' = .error e := by
      intro byBnd herror
      rcases ih herror with hmem | ⟨file', hmem, hfile'⟩
      · exact .inl (List.mem_cons_of_mem _ hmem)
      · exact .inr ⟨file', List.mem_cons_of_mem _ hmem, hfile'⟩
    rw [collectDict] at h
    by_cases hgame : isOfGame game file
    · rw [if_pos hgame] at h
      rcases hread : readToString file with e' | contents
      · rw [hread] at h
        cases h
        exact .inr ⟨file, List.mem_cons_self, hgame, hread⟩
      · rw [hread] at h
        exact hrest h
    · rw [if_neg hgame] at h
      exact hrest h

/-! ## The dictionary of a game -/

variable {readDir : ReadDir ε} {dir : PathBuf}

variable (readDir dir game) in
/-- A dictionary of an archive of the game, below a directory. -/
structure IsDictOf (name : Str) (file : PathBuf) : Prop where
  below : IsBelow readDir dir file
  ofGame : isOfGame game file
  filePrefix : file.prefixAndParentToLowercase.1 = name.lower

variable (readDir dir game readToString) in
/-- What a dictionary holds, if some files are read one after another. -/
structure HoldsLast (files : List PathBuf) (dict : Dictionary) (name : Str) : Prop where
  none : dict.byBnd name.lower = none ↔ ¬ ∃ file, IsDictOf game readDir dir name file
  /-- The file is the last one, and a deepest one.  A path has the hash that its last
      line has. -/
  some : ∀ contents, dict.byBnd name.lower = some contents → ∃ file, lastFile game name.lower files = some file ∧
    IsDictOf game readDir dir name file ∧ readToString file = .ok contents ∧
    (∀ file', IsDictOf game readDir dir name file' → file'.length ≤ file.length) ∧
    (∀ h, (dict.hashPaths32 name).get h = ((lines contents).filter fun path => hashPath32 path = some h).getLast?) ∧
    ∀ h, (dict.hashPaths64 name).get h = ((lines contents).filter fun path => hashPath64 path = some h).getLast?

theorem lastFile_eq_none {name : Str} {files : List PathBuf} : lastFile game name files = none ↔
    ∀ file ∈ files, isOfGame game file → file.prefixAndParentToLowercase.1 ≠ name := by
  rw [lastFile, List.getLast?_eq_none_iff, List.filter_eq_nil_iff]
  simp

/-- The last file is a deepest one, if files are sorted by their depth. -/
theorem length_le_lastFile {name : Str} {files : List PathBuf} {file file' : PathBuf}
    (hsorted : files.Pairwise fun path path' => path.length ≤ path'.length) (h : lastFile game name files = some file)
    (hmem : file' ∈ files) (hgame : isOfGame game file') (hname : file'.prefixAndParentToLowercase.1 = name) :
    file'.length ≤ file.length := by
  rw [lastFile] at h
  have hfilter : file' ∈ files.filter fun file => isOfGame game file && file.prefixAndParentToLowercase.1 = name :=
    List.mem_filter.2 ⟨hmem, by simp [hgame, hname]⟩
  obtain ⟨init, heq⟩ := List.getLast?_eq_some_iff.1 h
  have hpairwise := hsorted.filter fun file => isOfGame game file && file.prefixAndParentToLowercase.1 = name
  rw [heq] at hfilter hpairwise
  rcases List.mem_append.1 hfilter with hinit | hlast
  · exact (List.pairwise_append.1 hpairwise).2.2 _ hinit _ List.mem_cons_self
  · rw [List.mem_singleton.1 hlast]

/-- **The dictionary of a game**, if there are finitely many directories: it is
    found unless reading the directories or a dictionary of the game fails, and the
    last file of an archive counts, without the others. -/
theorem fromDirAndGame_spec {h : ℕ} (hheight : Height (subdirs readDir) h dir)
    {entries : List (Except ε (DirEntry ε))} (hread : readDir dir = .ok entries) : ∃ n items res,
      (∀ fuel, n ≤ fuel → recursiveReadFiles readDir fuel dir = some (.ok items) ∧
        Dictionary.fromDirAndGame readToString game readDir fuel dir = some res) ∧
      (∀ e, res = .error e → (∃ sub, Reaches (subdirs readDir) dir sub ∧ FailsIn readDir sub e) ∨
        ∃ file, IsBelow readDir dir file ∧ isOfGame game file ∧ readToString file = .error e) ∧
      ∀ dict, res = .ok dict → (¬ ∃ sub e, Reaches (subdirs readDir) dir sub ∧ FailsIn readDir sub e) ∧
        (∀ file, IsBelow readDir dir file → isOfGame game file → ∃ contents, readToString file = .ok contents) ∧
        ∀ name, HoldsLast readToString game readDir dir (items.filterMap Except.toOption) dict name := by
  have hitems := readsFiles_levels hheight
  obtain ⟨n, hn⟩ := recursiveReadFiles_levels hheight hread
  generalize levels (dirItems readDir) (subdirs readDir) h [dir] = items at hitems hn
  refine ⟨n, items, collectDict readToString game items fun _ => none, fun fuel hle => ⟨hn fuel hle, ?_⟩,
    fun e herror => ?_, fun dict hdict => ?_⟩
  · rw [Dictionary.fromDirAndGame, hn fuel hle]
    rfl
  · rcases collectDict_error herror with hmem | ⟨file, hmem, hfile⟩
    · exact .inl ((hitems.error e).1 hmem)
    · exact .inr ⟨file, hitems.mem_files.1 hmem, hfile⟩
  · obtain ⟨hno, hreadable, hlast⟩ := collectDict_ok hdict
    refine ⟨?_, fun file hfile => hreadable file (hitems.mem_files.2 hfile), fun name => ?_⟩
    · rintro ⟨sub, e, hsub⟩
      exact hno e ((hitems.error e).2 ⟨sub, hsub⟩)
    have hname := hlast name.lower
    rw [Option.or_none] at hname
    rcases hfile : lastFile game name.lower (items.filterMap Except.toOption) with _ | file
    · have hnone : dict.byBnd name.lower = none := by rw [hname, hfile, Option.bind_none]
      refine ⟨⟨fun _ => ?_, fun _ => hnone⟩, fun contents hsome => ?_⟩
      · rintro ⟨file, hbelow, hgame, hfilePrefix⟩
        exact lastFile_eq_none.1 hfile file (hitems.mem_files.2 hbelow) hgame hfilePrefix
      · rw [hnone] at hsome
        cases hsome
    · obtain ⟨hmem, hgame, hfilePrefix⟩ := of_lastFile hfile
      have hisDict : IsDictOf game readDir dir name file := ⟨hitems.mem_files.1 hmem, hgame, hfilePrefix⟩
      obtain ⟨contents, hcontents⟩ := hreadable file hmem hgame
      have hsome : dict.byBnd name.lower = some contents := by
        rw [hname, hfile, Option.bind_some, hcontents]
        rfl
      refine ⟨⟨fun hnone => ?_, fun hno => absurd ⟨file, hisDict⟩ hno⟩, fun contents' hsome' => ?_⟩
      · rw [hsome] at hnone
        cases hnone
      · cases hsome.symm.trans hsome'
        refine ⟨file, hfile, hisDict, hcontents, fun file' hfile' => ?_, fun hash => ?_, fun hash => ?_⟩
        · exact length_le_lastFile hitems.sorted hfile (hitems.mem_files.2 hfile'.below) hfile'.ofGame hfile'.filePrefix
        · rw [Dictionary.hashPaths32, Dictionary.hashPathIter, hsome]
          exact get_filterMap hashPath32 hash (lines contents)
        · rw [Dictionary.hashPaths64, Dictionary.hashPathIter, hsome]
          exact get_filterMap hashPath64 hash (lines contents)

/-- A directory of a game with two dictionaries of one archive. -/
def twoDicts : ReadDir Unit
  | [] => .ok [.ok ⟨"sekiro".toUTF8.toList, .ok true⟩]
  | [_] => .ok [.ok ⟨"data1.txt".toUTF8.toList, .ok false⟩, .ok ⟨"Data1.TXT".toUTF8.toList, .ok false⟩]
  | _ => .ok []

theorem twoDicts_height : Height (subdirs twoDicts) 2 [] := by
  intro dir hdir
  obtain rfl : dir = ["sekiro".toUTF8.toList] := List.mem_singleton.1 hdir
  intro sub hsub
  cases hsub

/-- What they contain. -/
def readTwoDicts (file : PathBuf) : Except Unit Str :=
  .ok (if file = ["sekiro".toUTF8.toList, "data1.txt".toUTF8.toList] then "/a.txt".toList else "/b.txt".toList)

theorem not_failsIn_twoDicts {sub : PathBuf} {e : Unit} : ¬ FailsIn twoDicts sub e := by
  rintro (hfails | ⟨entries, hentries, hfails⟩)
  · rcases sub with _ | ⟨_, _ | _⟩ <;> cases hfails
  · rcases sub with _ | ⟨_, _ | _⟩ <;> cases hentries <;> simp at hfails

/-- The second one counts. -/
theorem fromDirAndGame_twoDicts : ∃ n dict,
    (∀ fuel, n ≤ fuel → Dictionary.fromDirAndGame readTwoDicts "Sekiro".toList twoDicts fuel [] = some (.ok dict)) ∧
    dict.byBnd "data1".toList = some "/b.txt".toList := by
  obtain ⟨n, items, res, hres, herror, hok⟩ :=
    @fromDirAndGame_spec _ readTwoDicts "Sekiro".toList _ _ _ twoDicts_height _ rfl
  obtain ⟨m, hm⟩ := recursiveReadFiles_levels twoDicts_height rfl
  cases (hm (n + m) (Nat.le_add_left _ _)).symm.trans (hres (n + m) (Nat.le_add_right _ _)).1
  have hfiles : (levels (dirItems twoDicts) (subdirs twoDicts) 2 [[]]).filterMap Except.toOption =
      [["sekiro".toUTF8.toList, "data1.txt".toUTF8.toList], ["sekiro".toUTF8.toList, "Data1.TXT".toUTF8.toList]] := by
    decide +kernel
  rcases res with e | dict
  · rcases herror e rfl with ⟨sub, -, hfails⟩ | ⟨file, -, -, hfails⟩
    · exact absurd hfails not_failsIn_twoDicts
    · cases hfails
  obtain ⟨-, -, hholds⟩ := hok dict rfl
  refine ⟨n, dict, fun fuel hle => (hres fuel hle).2, ?_⟩
  have hdata1 := hholds "data1".toList
  rw [hfiles] at hdata1
  have hlast : lastFile "Sekiro".toList "data1".toList [["sekiro".toUTF8.toList, "data1.txt".toUTF8.toList],
      ["sekiro".toUTF8.toList, "Data1.TXT".toUTF8.toList]] = some ["sekiro".toUTF8.toList, "Data1.TXT".toUTF8.toList] := by
    decide +kernel
  rcases hbnd : dict.byBnd "data1".toList with _ | contents
  · have hbelow : IsBelow twoDicts [] ["sekiro".toUTF8.toList, "data1.txt".toUTF8.toList] :=
      ⟨_, .single List.mem_cons_self, _, _, rfl, List.mem_cons_self, rfl⟩
    exact absurd ⟨_, hbelow, by decide +kernel, by decide +kernel⟩ (hdata1.none.1 hbnd)
  · obtain ⟨file, hfile, -, hcontents, -⟩ := hdata1.some contents hbnd
    cases hlast.symm.trans hfile
    cases hcontents
    decide +kernel

end Fsvfs.Dvdbnd
