/-
  The keys of a set of archives (`src/dvdbnd/keys.rs`).

  Reading a key from a PEM file, and asking whether a key opens an archive, are
  parameters (`readKey`, `f`).  An error is that of `Checked`.

  * `findPemPaths_eq`: the PEM files are grouped by game, in the order of the names
    of the games;
  * `intoKeysForGameWithFilter_eq`: the cache of keys and the index of the game
    change nothing;
  * `findsKeys`: which keys, and which game, are found with the PEM files below a
    directory.
-/
import Fsvfs.Crypto.Rsa
import Fsvfs.Dvdbnd.Filesystem
import Fsvfs.Dvdbnd.ReadFiles
import Fsvfs.Filesystem.Layout
import Fsvfs.Lib.Checked
import Fsvfs.Lib.Memo
import Fsvfs.Lib.SortedVec

namespace Fsvfs.Dvdbnd

open Lib Lib.Checked Breadth SortedVec Crypto

/-! ## `find_pem_paths` -/

/-- `PemPathMap`: the paths of the PEM files of every game. -/
abbrev PemPathMap := List (Str × List PathBuf)

/-- How the games of a `PemPathMap` compare. -/
def gameKey (group : Str × List PathBuf) : List ℕ := byteKey group.1.bytes

/-- Whether the extension of a file is that of a PEM file. -/
def isPem (file : PathBuf) : Bool :=
  (file.extension.map fun ext => OsStr.eqIgnoreAsciiCase ext [0x70, 0x65, 0x6d]).getD false

/-- The game of a PEM file. -/
def gameOf (path : PathBuf) : Str := path.parentName.lower

/-- Adding a PEM file to the ones of its game. -/
def pushPem (map : PemPathMap) (path : PathBuf) : PemPathMap :=
  let game := gameOf path
  upsert gameKey map (byteKey game.bytes) (fun group => (group.1, group.2 ++ [path])) (game, [path])

/-- The loop of `find_pem_paths`. -/
def collectPems {ε : Type} : List (Except ε PathBuf) → PemPathMap → Except ε PemPathMap
  | [], map => .ok map
  | .error e :: _, _ => .error e
  | .ok file :: items, map => collectPems items (if isPem file then pushPem map file else map)

/-- `KeyProvider::find_pem_paths`. -/
def findPemPaths {ε : Type} (readDir : ReadDir ε) (fuel : ℕ) (keysDir : PathBuf) :
    Option (Except ε PemPathMap) :=
  (recursiveReadFiles readDir fuel keysDir).map fun files => files.bind fun items => collectPems items []

/-! ## `into_keys_for_game_with_filter` -/

/-- `Keys`. -/
structure Keys where
  game : Option Str
  byPath : BhdPath → Option (Option RsaKey)

/-- The variables of the search. -/
structure KeySearch extends Keys where
  gameIndex : Option ℕ
  cache : Memo PathBuf RsaKey

section
variable (readKey : PathBuf → Checked RsaKey) (f : BhdPath → Option RsaKey → Checked Bool)

/-- The key of a PEM file, from the cache if it is there. -/
def cachedKey (cache : Memo PathBuf RsaKey) (pem : PathBuf) : Checked (RsaKey × Memo PathBuf RsaKey) :=
  match cache pem with
  | some key => .ok (key, cache)
  | none => do
    let key ← readKey pem
    .ok (key, cache.put (pem, key))

/-- Asking whether the key of a PEM file of a game opens an archive. -/
def tryPem (bhdPath : BhdPath) (gameName : Str) (search : KeySearch) (pem : PathBuf) : Checked KeySearch := do
  let (key, cache) ← cachedKey readKey search.cache pem
  if ← f bhdPath (some key) then
    .ok { search with
      byPath := Function.update search.byPath bhdPath (some (some key))
      game := search.game.or (some gameName)
      cache := cache }
  else .ok { search with cache := cache }

/-- The loops over some games and their PEM files. -/
def tryGames (bhdPath : BhdPath) (search : KeySearch) (pemPaths : PemPathMap) : Checked KeySearch :=
  pemPaths.foldlM (fun search (gameName, pems) => pems.foldlM (tryPem readKey f bhdPath gameName) search) search

/-- The loop over the archives. -/
def searchArchive (pemPaths : PemPathMap) (search : KeySearch) (bhdPath : BhdPath) : Checked KeySearch := do
  if ← f bhdPath none then
    .ok { search with byPath := Function.update search.byPath bhdPath (some none) }
  else
    let gameIndex := search.gameIndex.or (search.game.bind fun game =>
      (binarySearchByKey gameKey pemPaths (byteKey game.bytes)).toOption)
    let search := { search with gameIndex := gameIndex }
    match gameIndex with
    | some i => do
      let group ← expect pemPaths[i]?
      tryGames readKey f bhdPath search [group]
    | none => tryGames readKey f bhdPath search pemPaths

/-- `KeyProvider::into_keys_for_game_with_filter`, after `find_pem_paths`. -/
def intoKeysForGameWithFilter (pemPaths : PemPathMap) (archives : List BhdPath) (game : Option Str) :
    Checked Keys := do
  let search ← archives.foldlM (searchArchive readKey f pemPaths) ⟨⟨game, fun _ => none⟩, none, Memo.empty⟩
  .ok search.toKeys

/-! ## Without the cache and the index -/

/-- The keys that open an archive, with their games. -/
def acceptedKeys (bhdPath : BhdPath) : List (Str × PathBuf) → Checked (List (Str × RsaKey))
  | [] => .ok []
  | (game, pem) :: rest => do
    let key ← readKey pem
    let opens ← f bhdPath (some key)
    let keys ← acceptedKeys bhdPath rest
    .ok (if opens then (game, key) :: keys else keys)

/-- The PEM files of some games, with their games. -/
def pemFiles (pemPaths : PemPathMap) : List (Str × PathBuf) :=
  pemPaths.flatMap fun group => group.2.map fun pem => (group.1, pem)

/-- The PEM files that are tried: those of a game, if it has some. -/
def candidates (pemPaths : PemPathMap) (game : Option Str) : List (Str × PathBuf) :=
  match game.bind fun game => find gameKey pemPaths (byteKey game.bytes) with
  | some group => pemFiles [group]
  | none => pemFiles pemPaths

/-- The keys, with those that open an archive: the last one is kept, and the game
    of the first one if there is no game. -/
def Keys.accept (keys : Keys) (bhdPath : BhdPath) (accepted : List (Str × RsaKey)) : Keys where
  game := keys.game.or (accepted.head?.map Prod.fst)
  byPath := match accepted.getLast? with
    | some (_, key) => Function.update keys.byPath bhdPath (some (some key))
    | none => keys.byPath

/-- What an archive adds to the keys. -/
def detectKey (pemPaths : PemPathMap) (keys : Keys) (bhdPath : BhdPath) : Checked Keys := do
  if ← f bhdPath none then
    .ok { keys with byPath := Function.update keys.byPath bhdPath (some none) }
  else
    let accepted ← acceptedKeys readKey f bhdPath (candidates pemPaths keys.game)
    .ok (keys.accept bhdPath accepted)

end

/-! ## The groups of PEM files -/

/-- Some files are grouped by game. -/
structure Groups (files : List PathBuf) (pemPaths : PemPathMap) : Prop where
  ascending : Ascending gameKey pemPaths
  find : ∀ game, SortedVec.find gameKey pemPaths (byteKey game.bytes) =
    if files.filter (gameOf · = game) = [] then none else some (game, files.filter (gameOf · = game))

theorem groups_nil : Groups [] [] := ⟨.nil, fun _ => rfl⟩

theorem Groups.push {files : List PathBuf} {pemPaths : PemPathMap} (h : Groups files pemPaths) (path : PathBuf) :
    Groups (files ++ [path]) (pushPem pemPaths path) := by
  refine ⟨h.ascending.upsert _ _ (fun _ => rfl) rfl, fun game => ?_⟩
  have hfresh : gameKey (gameOf path, [path]) = byteKey (gameOf path).bytes := rfl
  have hup := find_upsert (fun group => (group.1, group.2 ++ [path])) _ h.ascending (fun _ => rfl) hfresh
    (byteKey game.bytes)
  rw [pushPem, hup, h.find, h.find, List.filter_append]
  by_cases hgame : game = gameOf path
  · subst hgame
    rw [if_pos rfl, List.filter_cons_of_pos (by simp), List.filter_nil,
      if_neg (List.append_ne_nil_of_right_ne_nil _ (List.cons_ne_nil _ _))]
    by_cases hnil : files.filter (gameOf · = gameOf path) = []
    · rw [if_pos hnil, hnil]
      rfl
    · rw [if_neg hnil]
      rfl
  · rw [if_neg (by simpa using hgame), List.filter_cons_of_neg (by simpa using Ne.symm hgame), List.filter_nil,
      List.append_nil]

theorem groups_foldl {files done : List PathBuf} {pemPaths : PemPathMap} (h : Groups done pemPaths) :
    Groups (done ++ files) (files.foldl pushPem pemPaths) := by
  induction files generalizing done pemPaths with
  | nil => simpa using h
  | cons file files ih =>
    have hnext := ih (h.push file)
    rwa [List.append_assoc] at hnext

section
variable {ε : Type}

theorem collectPems_ok (files : List PathBuf) (map : PemPathMap) :
    collectPems (files.map (Except.ok : PathBuf → Except ε PathBuf)) map = .ok ((files.filter isPem).foldl pushPem map) := by
  induction files generalizing map with
  | nil => rfl
  | cons file files ih =>
    rw [List.map_cons, collectPems, ih]
    by_cases hpem : isPem file
    · rw [if_pos hpem, List.filter_cons_of_pos hpem]
      rfl
    · rw [if_neg hpem, List.filter_cons_of_neg hpem]

theorem collectPems_error {items : List (Except ε PathBuf)} (h : ∃ e, .error e ∈ items) (map : PemPathMap) :
    ∃ e, .error e ∈ items ∧ collectPems items map = .error e := by
  induction items generalizing map with
  | nil =>
    obtain ⟨e, he⟩ := h
    cases he
  | cons item items ih =>
    rcases item with e | file
    · exact ⟨e, List.mem_cons_self, rfl⟩
    · obtain ⟨e, he⟩ := h
      obtain ⟨e', he', heq⟩ := ih ⟨e, by simpa using he⟩ (if isPem file then pushPem map file else map)
      exact ⟨e', List.mem_cons_of_mem _ he', heq⟩

/-- Items without an error are files. -/
theorem eq_map_ok {items : List (Except ε PathBuf)} (h : ∀ e, .error e ∉ items) :
    items = (items.filterMap Except.toOption).map .ok := by
  induction items with
  | nil => rfl
  | cons item items ih =>
    rcases item with e | file
    · exact absurd List.mem_cons_self (h e)
    · have hrest := ih fun e he => h e (List.mem_cons_of_mem _ he)
      exact congrArg (.ok file :: ·) hrest

/-- **The PEM files below a directory are grouped by game**, unless reading the
    directory fails. -/
theorem findPemPaths_eq {readDir : ReadDir ε} {keysDir : PathBuf} {h : ℕ}
    (hheight : Height (subdirs readDir) h keysDir) {entries : List (Except ε (DirEntry ε))}
    (hread : readDir keysDir = .ok entries) : ∃ items result, ReadsFiles readDir keysDir items ∧
      (∃ n, ∀ fuel, n ≤ fuel → findPemPaths readDir fuel keysDir = some result) ∧
      ((∃ e, .error e ∈ items ∧ result = .error e) ∨
        ∃ pemPaths, (∀ e, .error e ∉ items) ∧ result = .ok pemPaths ∧
          Groups ((items.filterMap Except.toOption).filter isPem) pemPaths) := by
  have hitems := readsFiles_levels hheight
  obtain ⟨n, hn⟩ := recursiveReadFiles_levels hheight hread
  generalize levels (dirItems readDir) (subdirs readDir) h [keysDir] = items at hitems hn
  have hfind : ∀ fuel, n ≤ fuel → findPemPaths readDir fuel keysDir = some (collectPems items []) := by
    intro fuel hle
    rw [findPemPaths, hn fuel hle]
    rfl
  refine ⟨items, collectPems items [], hitems, ⟨n, hfind⟩, ?_⟩
  by_cases herror : ∃ e, .error e ∈ items
  · obtain ⟨e, he, heq⟩ := collectPems_error herror []
    exact .inl ⟨e, he, heq⟩
  · rw [not_exists] at herror
    refine .inr ⟨((items.filterMap Except.toOption).filter isPem).foldl pushPem [], herror, ?_, ?_⟩
    · rw [eq_map_ok herror, collectPems_ok, ← eq_map_ok herror]
    · simpa using @groups_foldl ((items.filterMap Except.toOption).filter isPem) [] [] groups_nil

end

/-! ## The cache and the index -/

section
variable {readKey : PathBuf → Checked RsaKey} {f : BhdPath → Option RsaKey → Checked Bool}
  {pemPaths : PemPathMap} {bhdPath : BhdPath} {cache : Memo PathBuf RsaKey} {search : KeySearch}

variable (readKey) in
/-- The cache holds keys of PEM files. -/
def CacheSound (cache : Memo PathBuf RsaKey) : Prop := ∀ pem key, cache pem = some key → readKey pem = .ok key

theorem cachedKey_of_error (hcache : CacheSound readKey cache) {pem : PathBuf} {s : Stop}
    (h : readKey pem = .error s) : cachedKey readKey cache pem = .error s := by
  rw [cachedKey]
  rcases hpem : cache pem with _ | key
  · dsimp only
    rw [h]
    rfl
  · rw [hcache pem key hpem] at h
    cases h

theorem cachedKey_of_ok (hcache : CacheSound readKey cache) {pem : PathBuf} {key : RsaKey}
    (h : readKey pem = .ok key) : ∃ cache', cachedKey readKey cache pem = .ok (key, cache') ∧ CacheSound readKey cache' := by
  rw [cachedKey]
  rcases hpem : cache pem with _ | key'
  · refine ⟨cache.put (pem, key), ?_, fun pem' key' hput => ?_⟩
    · dsimp only
      rw [h]
      rfl
    · rw [Memo.put, Function.update_apply] at hput
      split_ifs at hput with heq
      · cases hput
        rw [heq]
        exact h
      · exact hcache pem' key' hput
  · obtain rfl : key = key' := Except.ok.inj (h.symm.trans (hcache pem key' hpem))
    exact ⟨cache, rfl, hcache⟩

theorem Keys.accept_cons (keys : Keys) (bhdPath : BhdPath) (game : Str) (key : RsaKey)
    (accepted : List (Str × RsaKey)) : keys.accept bhdPath ((game, key) :: accepted) =
      (keys.accept bhdPath [(game, key)]).accept bhdPath accepted := by
  obtain ⟨keysGame, byPath⟩ := keys
  rw [accept, accept, accept]
  congr 1
  · rcases keysGame with _ | _ <;> rfl
  · rcases accepted.eq_nil_or_concat with rfl | ⟨init, ⟨game', key'⟩, rfl⟩
    · rfl
    · rw [List.concat_eq_append, ← List.cons_append, List.getLast?_append, List.getLast?_append]
      exact (Function.update_idem _ _ _).symm

theorem Keys.accept_nil (keys : Keys) (bhdPath : BhdPath) : keys.accept bhdPath [] = keys := by
  obtain ⟨_ | _, _⟩ := keys <;> rfl

/-- Trying some PEM files. -/
def tryPems (readKey : PathBuf → Checked RsaKey) (f : BhdPath → Option RsaKey → Checked Bool)
    (bhdPath : BhdPath) (search : KeySearch) (pems : List (Str × PathBuf)) : Checked KeySearch :=
  pems.foldlM (fun search (gameName, pem) => tryPem readKey f bhdPath gameName search pem) search

theorem tryGames_eq (search : KeySearch) (groups : PemPathMap) :
    tryGames readKey f bhdPath search groups = tryPems readKey f bhdPath search (pemFiles groups) := by
  induction groups generalizing search with
  | nil => rfl
  | cons group groups ih =>
    rw [tryGames, List.foldlM_cons, tryPems, pemFiles, List.flatMap_cons, List.foldlM_append, List.foldlM_map]
    exact bind_congr fun search => ih search

theorem tryPems_cons (search : KeySearch) (game : Str) (pem : PathBuf) (pems : List (Str × PathBuf)) :
    tryPems readKey f bhdPath search ((game, pem) :: pems) =
      tryPem readKey f bhdPath game search pem >>= fun search => tryPems readKey f bhdPath search pems := rfl

/-- What the search has found after some keys that open an archive. -/
structure Accepts (readKey : PathBuf → Checked RsaKey) (search search' : KeySearch) (bhdPath : BhdPath)
    (accepted : List (Str × RsaKey)) : Prop where
  keys : search'.toKeys = search.toKeys.accept bhdPath accepted
  gameIndex : search'.gameIndex = search.gameIndex
  cache : CacheSound readKey search'.cache

/-- **Trying some PEM files** finds the keys that open the archive. -/
theorem tryPems_eq (hcache : CacheSound readKey search.cache) (pems : List (Str × PathBuf)) :
    (∀ s, acceptedKeys readKey f bhdPath pems = .error s → tryPems readKey f bhdPath search pems = .error s) ∧
      ∀ accepted, acceptedKeys readKey f bhdPath pems = .ok accepted →
        ∃ search', tryPems readKey f bhdPath search pems = .ok search' ∧
          Accepts readKey search search' bhdPath accepted := by
  induction pems generalizing search with
  | nil =>
    refine ⟨(fun s h => by cases h), fun accepted h => ?_⟩
    cases h
    exact ⟨search, rfl, (Keys.accept_nil _ _).symm, rfl, hcache⟩
  | cons pem pems ih =>
    obtain ⟨game, pem⟩ := pem
    rw [tryPems_cons, acceptedKeys, tryPem]
    rcases hkey : readKey pem with s | key
    · rw [cachedKey_of_error hcache hkey]
      exact ⟨(fun s' h => by simpa using h), fun accepted h => by cases h⟩
    · obtain ⟨cache', hcached, hcache'⟩ := cachedKey_of_ok hcache hkey
      rw [hcached]
      simp only [ok_bind]
      rcases hf : f bhdPath (some key) with s | _ | _
      · exact ⟨(fun s' h => by simpa using h), fun accepted h => by cases h⟩
      · -- the key does not open the archive
        obtain ⟨herror, hok⟩ := @ih { search with cache := cache' } hcache'
        simp only [ok_bind, Bool.false_eq_true, if_false]
        refine ⟨fun s h => herror s ?_, fun accepted h => ?_⟩
        · rcases hrest : acceptedKeys readKey f bhdPath pems with s' | more
          · rw [hrest] at h
            exact h
          · rw [hrest] at h
            cases h
        · obtain ⟨more, hrest, hmore⟩ := bind_eq_ok.1 h
          cases hmore
          obtain ⟨search', heq, haccepts⟩ := hok _ hrest
          exact ⟨search', heq, haccepts.keys, haccepts.gameIndex, haccepts.cache⟩
      · -- it does
        simp only [ok_bind, if_true]
        set search₁ : KeySearch := { search with
          byPath := Function.update search.byPath bhdPath (some (some key))
          game := search.game.or (some game)
          cache := cache' } with hsearch₁
        obtain ⟨herror, hok⟩ := @ih search₁ hcache'
        refine ⟨fun s h => herror s ?_, fun accepted h => ?_⟩
        · rcases hrest : acceptedKeys readKey f bhdPath pems with s' | more
          · rw [hrest] at h
            exact h
          · rw [hrest] at h
            cases h
        · obtain ⟨more, hrest, hmore⟩ := bind_eq_ok.1 h
          cases hmore
          obtain ⟨search', heq, haccepts⟩ := hok _ hrest
          refine ⟨search', heq, ?_, haccepts.gameIndex, haccepts.cache⟩
          rw [haccepts.keys, Keys.accept_cons]
          rfl

/-- The group that the index is of. -/
theorem group_of_search (hpems : Ascending gameKey pemPaths) (game : Str) :
    (∃ i group, binarySearchByKey gameKey pemPaths (byteKey game.bytes) = .ok i ∧ pemPaths[i]? = some group ∧
      find gameKey pemPaths (byteKey game.bytes) = some group) ∨
    ∃ i, binarySearchByKey gameKey pemPaths (byteKey game.bytes) = .error i ∧
      find gameKey pemPaths (byteKey game.bytes) = none := by
  rcases h : binarySearchByKey gameKey pemPaths (byteKey game.bytes) with i | i
  · refine .inr ⟨i, rfl, ?_⟩
    obtain ⟨-, hlt, hgt⟩ := search_of_error hpems h
    rw [← List.take_append_drop i pemPaths]
    exact find_append_self ⟨hlt, hgt⟩
  · obtain ⟨group, hgroup, hkey⟩ := search_of_ok hpems h
    exact .inl ⟨i, group, rfl, hgroup, (find_eq_some hpems).2 ⟨List.mem_of_getElem? hgroup, hkey⟩⟩

variable (readKey pemPaths) in
/-- The cache holds keys of PEM files, and the index is that of the game. -/
structure Tracks (search : KeySearch) : Prop where
  cache : CacheSound readKey search.cache
  gameIndex : ∀ i, search.gameIndex = some i → ∃ game, search.game = some game ∧
    binarySearchByKey gameKey pemPaths (byteKey game.bytes) = .ok i

theorem Tracks.gameIndex_eq (h : Tracks readKey pemPaths search) :
    (search.gameIndex.or (search.game.bind fun game =>
      (binarySearchByKey gameKey pemPaths (byteKey game.bytes)).toOption)) =
    search.game.bind fun game => (binarySearchByKey gameKey pemPaths (byteKey game.bytes)).toOption := by
  rcases hindex : search.gameIndex with _ | i
  · rfl
  · obtain ⟨game, hgame, hsearch⟩ := h.gameIndex i hindex
    rw [hgame, Option.bind_some, hsearch]
    rfl

/-- The games that are tried are the candidates. -/
theorem searchArchive_candidates (hpems : Ascending gameKey pemPaths) (h : Tracks readKey pemPaths search)
    (hf : f bhdPath none = .ok false) : ∃ index, (∀ i, index = some i → ∃ game, search.game = some game ∧
        binarySearchByKey gameKey pemPaths (byteKey game.bytes) = .ok i) ∧
      searchArchive readKey f pemPaths search bhdPath =
        tryPems readKey f bhdPath { search with gameIndex := index } (candidates pemPaths search.game) := by
  refine ⟨search.game.bind fun game => (binarySearchByKey gameKey pemPaths (byteKey game.bytes)).toOption,
    fun i hi => ?_, ?_⟩
  · obtain ⟨game, hgame, hsearch⟩ := Option.bind_eq_some_iff.1 hi
    rcases hok : binarySearchByKey gameKey pemPaths (byteKey game.bytes) with j | j
    · rw [hok] at hsearch
      cases hsearch
    · rw [hok] at hsearch
      cases hsearch
      exact ⟨game, hgame, hok⟩
  · rw [searchArchive, hf, h.gameIndex_eq, candidates]
    simp only [ok_bind, Bool.false_eq_true, if_false]
    rcases search.game with _ | game
    · exact tryGames_eq _ _
    · simp only [Option.bind_some]
      rcases group_of_search hpems game with ⟨i, group, hsearch, hgroup, hfind⟩ | ⟨i, hsearch, hfind⟩
      · rw [hsearch, hfind]
        simp only [Except.toOption]
        rw [hgroup]
        exact tryGames_eq _ _
      · rw [hsearch, hfind]
        exact tryGames_eq _ _

/-- The step of the search for one archive. -/
theorem searchArchive_eq (hpems : Ascending gameKey pemPaths) (h : Tracks readKey pemPaths search)
    (bhdPath : BhdPath) :
    (searchArchive readKey f pemPaths search bhdPath).map KeySearch.toKeys =
        detectKey readKey f pemPaths search.toKeys bhdPath ∧
      ∀ search', searchArchive readKey f pemPaths search bhdPath = .ok search' →
        Tracks readKey pemPaths search' := by
  rcases hf : f bhdPath none with s | _ | _
  · rw [searchArchive, detectKey, hf]
    exact ⟨rfl, fun search' h => by cases h⟩
  · obtain ⟨index, hindex, heq⟩ := searchArchive_candidates hpems h hf
    obtain ⟨herror, hok⟩ := @tryPems_eq readKey f bhdPath { search with gameIndex := index } h.cache
      (candidates pemPaths search.game)
    rw [heq, detectKey, hf]
    simp only [ok_bind, Bool.false_eq_true, if_false]
    rcases haccepted : acceptedKeys readKey f bhdPath (candidates pemPaths search.game) with s | accepted
    · rw [herror s haccepted]
      exact ⟨rfl, fun search' h => by cases h⟩
    · obtain ⟨search', hsearch', haccepts⟩ := hok accepted haccepted
      rw [hsearch']
      refine ⟨congrArg Except.ok haccepts.keys, fun search'' h' => ?_⟩
      cases h'
      refine ⟨haccepts.cache, fun i hi => ?_⟩
      rw [haccepts.gameIndex] at hi
      obtain ⟨game, hgame, hsearch⟩ := hindex i hi
      refine ⟨game, ?_, hsearch⟩
      rw [haccepts.keys, Keys.accept]
      dsimp only
      rw [hgame]
      rfl
  · rw [searchArchive, detectKey, hf]
    refine ⟨rfl, fun search' h' => ?_⟩
    cases h'
    exact ⟨h.cache, h.gameIndex⟩

theorem foldlM_searchArchive (hpems : Ascending gameKey pemPaths) (archives : List BhdPath) {search : KeySearch}
    (h : Tracks readKey pemPaths search) :
    (archives.foldlM (searchArchive readKey f pemPaths) search).map KeySearch.toKeys =
      archives.foldlM (detectKey readKey f pemPaths) search.toKeys := by
  induction archives generalizing search with
  | nil => rfl
  | cons bhdPath archives ih =>
    obtain ⟨hmap, hnext⟩ := @searchArchive_eq readKey f pemPaths search hpems h bhdPath
    rw [List.foldlM_cons, List.foldlM_cons, ← hmap]
    rcases hstep : searchArchive readKey f pemPaths search bhdPath with s | search'
    · rfl
    · exact ih (hnext search' hstep)

theorem tracks_start (game : Option Str) : Tracks readKey pemPaths ⟨⟨game, fun _ => none⟩, none, Memo.empty⟩ :=
  ⟨(fun _ _ h => by cases h), fun _ h => by cases h⟩

theorem intoKeysForGameWithFilter_eq_map (archives : List BhdPath) (game : Option Str) :
    intoKeysForGameWithFilter readKey f pemPaths archives game =
      (archives.foldlM (searchArchive readKey f pemPaths) ⟨⟨game, fun _ => none⟩, none, Memo.empty⟩).map
        KeySearch.toKeys := by
  rw [intoKeysForGameWithFilter]
  rcases archives.foldlM (searchArchive readKey f pemPaths) ⟨⟨game, fun _ => none⟩, none, Memo.empty⟩ with s | search
  · rfl
  · rfl

/-- **The cache of keys and the index of the game change nothing**, whether or not
    the search fails. -/
theorem intoKeysForGameWithFilter_eq (readKey : PathBuf → Checked RsaKey)
    (f : BhdPath → Option RsaKey → Checked Bool) (hpems : Ascending gameKey pemPaths) (archives : List BhdPath)
    (game : Option Str) : intoKeysForGameWithFilter readKey f pemPaths archives game =
      archives.foldlM (detectKey readKey f pemPaths) ⟨game, fun _ => none⟩ := by
  rw [intoKeysForGameWithFilter_eq_map]
  exact foldlM_searchArchive hpems archives (tracks_start game)

/-- The PEM files of a game. -/
def somePemPaths : PemPathMap := [("sekiro".toList, [["sekiro".toUTF8.toList, "data1.pem".toUTF8.toList]])]

theorem intoKeysForGameWithFilter_somePemPaths :
    intoKeysForGameWithFilter (fun _ => .ok ⟨77, 65537, 1, Nat.one_pos⟩) (fun _ key => .ok key.isSome) somePemPaths
        [⟨[], "data1.bhd".toList⟩] none =
      [⟨[], "data1.bhd".toList⟩].foldlM
        (detectKey (fun _ => .ok ⟨77, 65537, 1, Nat.one_pos⟩) (fun _ key => .ok key.isSome) somePemPaths)
        ⟨none, fun _ => none⟩ :=
  intoKeysForGameWithFilter_eq _ _ (List.pairwise_singleton _ _) _ none

/-! ## The keys that are found -/

theorem acceptedKeys_spec {pems : List (Str × PathBuf)} {accepted : List (Str × RsaKey)}
    (h : acceptedKeys readKey f bhdPath pems = .ok accepted) :
    (∀ game key, (game, key) ∈ accepted ↔
      ∃ pem, (game, pem) ∈ pems ∧ readKey pem = .ok key ∧ f bhdPath (some key) = .ok true) ∧
    ∀ game pem key, (game, pem) ∈ pems → readKey pem = .ok key → f bhdPath (some key) ≠ .ok true →
      f bhdPath (some key) = .ok false := by
  induction pems generalizing accepted with
  | nil =>
    cases h
    simp
  | cons p pems ih =>
    obtain ⟨game, pem⟩ := p
    obtain ⟨key, hkey, h⟩ := bind_eq_ok.1 h
    obtain ⟨opens, hopens, h⟩ := bind_eq_ok.1 h
    obtain ⟨more, hmore, h⟩ := bind_eq_ok.1 h
    cases h
    obtain ⟨hmem, hfalse⟩ := ih hmore
    constructor
    · intro game' key'
      rcases opens with _ | _
      · rw [if_neg (by simp), hmem]
        constructor
        · rintro ⟨pem', hpem', hrest⟩
          exact ⟨pem', List.mem_cons_of_mem _ hpem', hrest⟩
        · rintro ⟨pem', hpem', hkey', hf⟩
          rcases List.mem_cons.1 hpem' with heq | hpem'
          · cases heq
            cases hkey.symm.trans hkey'
            rw [hopens] at hf
            cases hf
          · exact ⟨pem', hpem', hkey', hf⟩
      · rw [if_pos rfl, List.mem_cons, hmem]
        constructor
        · rintro (heq | ⟨pem', hpem', hrest⟩)
          · cases heq
            exact ⟨pem, List.mem_cons_self, hkey, hopens⟩
          · exact ⟨pem', List.mem_cons_of_mem _ hpem', hrest⟩
        · rintro ⟨pem', hpem', hkey', hf⟩
          rcases List.mem_cons.1 hpem' with heq | hpem'
          · cases heq
            cases hkey.symm.trans hkey'
            exact .inl rfl
          · exact .inr ⟨pem', hpem', hkey', hf⟩
    · intro game' pem' key' hpem' hkey' hne
      rcases List.mem_cons.1 hpem' with heq | hpem'
      · cases heq
        cases hkey.symm.trans hkey'
        rcases opens with _ | _
        · exact hopens
        · exact absurd hopens hne
      · exact hfalse game' pem' key' hpem' hkey' hne

theorem candidates_subset (pemPaths : PemPathMap) (game : Option Str) :
    ∀ p ∈ candidates pemPaths game, p ∈ pemFiles pemPaths := by
  intro p hp
  rw [candidates] at hp
  rcases hgroup : game.bind fun game => find gameKey pemPaths (byteKey game.bytes) with _ | group
  · rwa [hgroup] at hp
  · rw [hgroup] at hp
    obtain ⟨game, -, hfind⟩ := Option.bind_eq_some_iff.1 hgroup
    obtain ⟨group', hmem, hp⟩ := List.mem_flatMap.1 hp
    rw [List.mem_singleton.1 hmem] at hp
    exact List.mem_flatMap.2 ⟨group, List.mem_of_find?_eq_some hfind, hp⟩

/-- The candidates are of the game, if it has PEM files. -/
theorem game_of_candidates {game : Str} (hgame : find gameKey pemPaths (byteKey game.bytes) ≠ none)
    {p : Str × PathBuf} (hp : p ∈ candidates pemPaths (some game)) : p.1 = game := by
  obtain ⟨group, hfind⟩ := Option.ne_none_iff_exists'.1 hgame
  rw [candidates, Option.bind_some, hfind] at hp
  obtain ⟨group', hmem, hp⟩ := List.mem_flatMap.1 hp
  obtain ⟨pem, -, rfl⟩ := List.mem_map.1 hp
  rw [List.mem_singleton.1 hmem]
  have hkey : gameKey group = byteKey game.bytes := by simpa using List.find?_some hfind
  exact Str.bytes_injective (byteKey_injective hkey)

variable (readKey f pemPaths) in
/-- What is known of the keys after some archives. -/
structure KeysFound (game : Option Str) (archives : List BhdPath) (keys : Keys) : Prop where
  /-- A game that is given is kept. -/
  given : ∀ g, game = some g → keys.game = some g
  /-- A game that is detected has a key that opens one of the archives. -/
  detected : game = none → ∀ g, keys.game = some g → ∃ bhdPath ∈ archives, ∃ pem key, (g, pem) ∈ pemFiles pemPaths ∧
    readKey pem = .ok key ∧ f bhdPath (some key) = .ok true
  plain : ∀ bhdPath ∈ archives, keys.byPath bhdPath = some none ↔ f bhdPath none = .ok true
  /-- A key opens its archive, and is of the game that is given. -/
  opens : ∀ bhdPath key, keys.byPath bhdPath = some (some key) → bhdPath ∈ archives ∧ f bhdPath none = .ok false ∧
    f bhdPath (some key) = .ok true ∧ keys.game ≠ none ∧ ∃ g pem, (g, pem) ∈ pemFiles pemPaths ∧
      readKey pem = .ok key ∧ ∀ g', game = some g' → find gameKey pemPaths (byteKey g'.bytes) ≠ none → g = g'
  /-- No key of the game opens an archive that is left out. -/
  missing : ∀ bhdPath ∈ archives, keys.byPath bhdPath = none → f bhdPath none = .ok false ∧
    ∀ p ∈ candidates pemPaths keys.game, ∀ key, readKey p.2 = .ok key → f bhdPath (some key) = .ok false
  untouched : ∀ bhdPath ∉ archives, keys.byPath bhdPath = none

theorem keysFound_nil (game : Option Str) : KeysFound readKey f pemPaths game [] ⟨game, fun _ => none⟩ where
  given g h := h
  detected h g hg := by
    rw [h] at hg
    cases hg
  plain bhdPath h := by cases h
  opens bhdPath key h := by cases h
  missing bhdPath h := by cases h
  untouched bhdPath _ := rfl

theorem detectKey_cases {keys keys' : Keys} (h : detectKey readKey f pemPaths keys bhdPath = .ok keys') :
    (f bhdPath none = .ok true ∧
      keys' = { keys with byPath := Function.update keys.byPath bhdPath (some none) }) ∨
    ∃ accepted, f bhdPath none = .ok false ∧
      acceptedKeys readKey f bhdPath (candidates pemPaths keys.game) = .ok accepted ∧
        keys' = keys.accept bhdPath accepted := by
  obtain ⟨opens, hopens, h⟩ := bind_eq_ok.1 h
  rcases opens with _ | _
  · rw [if_neg (by simp)] at h
    obtain ⟨accepted, haccepted, h⟩ := bind_eq_ok.1 h
    cases h
    exact .inr ⟨accepted, hopens, haccepted, rfl⟩
  · rw [if_pos rfl] at h
    cases h
    exact .inl ⟨hopens, rfl⟩

/-- Detecting a game leaves fewer candidates. -/
theorem candidates_or (game game' : Option Str) :
    ∀ p ∈ candidates pemPaths (game.or game'), p ∈ candidates pemPaths game := by
  intro p hp
  rcases game with _ | game
  · exact candidates_subset pemPaths _ p hp
  · exact hp

variable {game : Option Str} {archives : List BhdPath} {keys keys' : Keys}

theorem KeysFound.plain_step (h : KeysFound readKey f pemPaths game archives keys) (hnew : bhdPath ∉ archives)
    (hf : f bhdPath none = .ok true)
    (heq : keys' = { keys with byPath := Function.update keys.byPath bhdPath (some none) }) :
    KeysFound readKey f pemPaths game (archives ++ [bhdPath]) keys' := by
  have hgame : keys'.game = keys.game := by rw [heq]
  have hself : keys'.byPath bhdPath = some none := by
    rw [heq]
    exact Function.update_self _ _ _
  have hother : ∀ {b : BhdPath}, b ≠ bhdPath → keys'.byPath b = keys.byPath b := by
    intro b hb
    rw [heq]
    exact Function.update_of_ne hb _ _
  have hold : ∀ {b : BhdPath}, b ∈ archives → b ≠ bhdPath := by
    rintro b hb rfl
    exact hnew hb
  refine ⟨fun g hg => hgame.trans (h.given g hg), fun hnone g hg => ?_, fun b hb => ?_, fun b key hb => ?_,
    fun b hb hnone => ?_, fun b hb => ?_⟩
  · obtain ⟨b, hb, hrest⟩ := h.detected hnone g (hgame.symm.trans hg)
    exact ⟨b, List.mem_append_left _ hb, hrest⟩
  · rcases List.mem_append.1 hb with hb | hb
    · rw [hother (hold hb)]
      exact h.plain b hb
    · rw [List.mem_singleton.1 hb, hself]
      exact ⟨fun _ => hf, fun _ => rfl⟩
  · by_cases hsame : b = bhdPath
    · rw [hsame, hself] at hb
      cases hb
    · rw [hother hsame] at hb
      obtain ⟨hmem, hrest⟩ := h.opens b key hb
      rw [hgame]
      exact ⟨List.mem_append_left _ hmem, hrest⟩
  · rcases List.mem_append.1 hb with hb | hb
    · rw [hother (hold hb)] at hnone
      rw [hgame]
      exact h.missing b hb hnone
    · rw [List.mem_singleton.1 hb, hself] at hnone
      cases hnone
  · rw [List.mem_append, not_or] at hb
    rw [hother fun hsame => hb.2 (List.mem_singleton.2 hsame)]
    exact h.untouched b hb.1

theorem KeysFound.encrypted_step (h : KeysFound readKey f pemPaths game archives keys) (hnew : bhdPath ∉ archives)
    (hf : f bhdPath none = .ok false) {accepted : List (Str × RsaKey)}
    (haccepted : acceptedKeys readKey f bhdPath (candidates pemPaths keys.game) = .ok accepted) :
    KeysFound readKey f pemPaths game (archives ++ [bhdPath]) (keys.accept bhdPath accepted) := by
  obtain ⟨hmem, hfalse⟩ := acceptedKeys_spec haccepted
  have hsub := candidates_subset pemPaths keys.game
  have hgame : (keys.accept bhdPath accepted).game = keys.game.or (accepted.head?.map Prod.fst) := rfl
  have hother : ∀ {b : BhdPath}, b ≠ bhdPath → (keys.accept bhdPath accepted).byPath b = keys.byPath b := by
    intro b hb
    rw [Keys.accept]
    dsimp only
    rcases accepted.getLast? with _ | ⟨g, key⟩
    · rfl
    · exact Function.update_of_ne hb _ _
  have hself : (keys.accept bhdPath accepted).byPath bhdPath = accepted.getLast?.map fun p => some p.2 := by
    rw [Keys.accept]
    dsimp only
    rcases accepted.getLast? with _ | ⟨g, key⟩
    · exact h.untouched bhdPath hnew
    · exact Function.update_self _ _ _
  have hold : ∀ {b : BhdPath}, b ∈ archives → b ≠ bhdPath := by
    rintro b hb rfl
    exact hnew hb
  refine ⟨fun g hg => ?_, fun hnone g hg => ?_, fun b hb => ?_, fun b key hb => ?_, fun b hb hnone => ?_, fun b hb => ?_⟩
  · rw [hgame, h.given g hg]
    rfl
  · rw [hgame] at hg
    rcases hkeys : keys.game with _ | g'
    · rw [hkeys, Option.none_or] at hg
      obtain ⟨⟨g', key⟩, hhead, rfl⟩ := Option.map_eq_some_iff.1 hg
      obtain ⟨pem, hpem, hkey, hopens⟩ := (hmem g' key).1 (List.mem_of_mem_head? hhead)
      exact ⟨bhdPath, by simp, pem, key, hsub _ hpem, hkey, hopens⟩
    · rw [hkeys, Option.some_or] at hg
      obtain ⟨b, hb, hrest⟩ := h.detected hnone g (hkeys.trans hg)
      exact ⟨b, List.mem_append_left _ hb, hrest⟩
  · rcases List.mem_append.1 hb with hb | hb
    · rw [hother (hold hb)]
      exact h.plain b hb
    · rw [List.mem_singleton.1 hb, hself, hf]
      constructor
      · intro heq
        obtain ⟨p, -, hp⟩ := Option.map_eq_some_iff.1 heq
        cases hp
      · intro heq
        cases heq
  · by_cases heq : b = bhdPath
    · subst heq
      rw [hself] at hb
      obtain ⟨⟨g, key'⟩, hlast, hkey'⟩ := Option.map_eq_some_iff.1 hb
      cases hkey'
      have hin := List.mem_of_getLast? hlast
      obtain ⟨pem, hpem, hkey, hopens⟩ := (hmem g key').1 hin
      refine ⟨by simp, hf, hopens, ?_, g, pem, hsub _ hpem, hkey, fun g' hg' hfind => ?_⟩
      · rw [hgame]
        rcases accepted with _ | ⟨p, accepted⟩
        · cases hin
        · rcases keys.game with _ | _ <;> simp
      · rw [h.given g' hg'] at hpem
        exact game_of_candidates hfind hpem
    · rw [hother heq] at hb
      obtain ⟨hin, hplain, hopens, hne, hrest⟩ := h.opens b key hb
      refine ⟨List.mem_append_left _ hin, hplain, hopens, ?_, hrest⟩
      obtain ⟨g, hg⟩ := Option.ne_none_iff_exists'.1 hne
      rw [hgame, hg]
      simp
  · rw [hgame]
    rcases List.mem_append.1 hb with hb | hb
    · rw [hother (hold hb)] at hnone
      obtain ⟨hplain, hmissing⟩ := h.missing b hb hnone
      exact ⟨hplain, fun p hp => hmissing p (candidates_or _ _ p hp)⟩
    · obtain rfl := List.mem_singleton.1 hb
      rw [hself, Option.map_eq_none_iff, List.getLast?_eq_none_iff] at hnone
      subst hnone
      refine ⟨hf, fun p hp key hkey => ?_⟩
      have hp' := candidates_or _ _ p hp
      refine hfalse p.1 p.2 key hp' hkey fun hopens => ?_
      cases (hmem p.1 key).2 ⟨p.2, hp', hkey, hopens⟩
  · rw [List.mem_append, not_or] at hb
    rw [hother fun heq => hb.2 (List.mem_singleton.2 heq)]
    exact h.untouched b hb.1

theorem KeysFound.run (more done : List BhdPath) (found : Keys)
    (hnodup : (done ++ more).Nodup) (hfound : KeysFound readKey f pemPaths game done found)
    (h : more.foldlM (detectKey readKey f pemPaths) found = .ok keys) :
    KeysFound readKey f pemPaths game (done ++ more) keys := by
  induction more generalizing done found with
  | nil =>
    cases h
    rwa [List.append_nil]
  | cons bhdPath more ih =>
    have hnew : bhdPath ∉ done := by
      intro hmem
      exact (List.nodup_append'.1 hnodup).2.2 hmem List.mem_cons_self
    obtain ⟨found', hstep, hrest⟩ := bind_eq_ok.1 h
    rw [List.append_cons] at hnodup ⊢
    refine ih (done ++ [bhdPath]) found' hnodup ?_ hrest
    rcases detectKey_cases hstep with ⟨hf, heq⟩ | ⟨accepted, hf, haccepted, rfl⟩
    · exact hfound.plain_step hnew hf heq
    · exact hfound.encrypted_step hnew hf haccepted

theorem keysFound_of_ok (hpems : Ascending gameKey pemPaths) (harchives : archives.Nodup)
    (h : intoKeysForGameWithFilter readKey f pemPaths archives game = .ok keys) :
    KeysFound readKey f pemPaths game archives keys := by
  rw [intoKeysForGameWithFilter_eq_map, foldlM_searchArchive hpems archives (tracks_start game)] at h
  exact KeysFound.run archives [] ⟨game, fun _ => none⟩ harchives (keysFound_nil game) h

end

/-! ## The keys of a directory -/

/-- `KeyProvider`. -/
structure KeyProvider where
  archives : List BhdPath
  keysDir : PathBuf

/-- `KeyProvider::into_keys_for_game_with_filter`. -/
def KeyProvider.intoKeysForGameWithFilter {ε : Type} (provider : KeyProvider) (readDir : ReadDir ε) (fuel : ℕ)
    (readKey : PathBuf → Checked RsaKey) (f : BhdPath → Option RsaKey → Checked Bool) (game : Option Str) :
    Option (Checked Keys) :=
  (findPemPaths readDir fuel provider.keysDir).map fun
    | .error _ => .error .error
    | .ok pemPaths => Dvdbnd.intoKeysForGameWithFilter readKey f pemPaths provider.archives game

/-- A PEM file below a directory. -/
structure IsPemBelow {ε : Type} (readDir : ReadDir ε) (keysDir pem : PathBuf) : Prop where
  isPem : isPem pem
  below : IsBelow readDir keysDir pem

/-- What is found with the PEM files below a directory. -/
structure FindsKeys {ε : Type} (readDir : ReadDir ε) (keysDir : PathBuf) (readKey : PathBuf → Checked RsaKey)
    (f : BhdPath → Option RsaKey → Checked Bool) (archives : List BhdPath) (game : Option Str) (keys : Keys) :
    Prop where
  /-- A game that is given is kept. -/
  given : ∀ g, game = some g → keys.game = some g
  /-- A game that is detected has a key that opens one of the archives. -/
  detected : game = none → ∀ g, keys.game = some g → ∃ bhdPath ∈ archives, ∃ pem key, IsPemBelow readDir keysDir pem ∧
    gameOf pem = g ∧ readKey pem = .ok key ∧ f bhdPath (some key) = .ok true
  plain : ∀ bhdPath ∈ archives, keys.byPath bhdPath = some none ↔ f bhdPath none = .ok true
  /-- A key opens its archive, and is of the game that is given if that has keys. -/
  opens : ∀ bhdPath key, keys.byPath bhdPath = some (some key) → bhdPath ∈ archives ∧ f bhdPath none = .ok false ∧
    f bhdPath (some key) = .ok true ∧ keys.game ≠ none ∧ ∃ pem, IsPemBelow readDir keysDir pem ∧
      readKey pem = .ok key ∧
        ∀ g, game = some g → (∃ pem', IsPemBelow readDir keysDir pem' ∧ gameOf pem' = g) → gameOf pem = g
  /-- No key of the game opens an archive that is left out, and no key at all if the
      game has none. -/
  missing : ∀ bhdPath ∈ archives, keys.byPath bhdPath = none → f bhdPath none = .ok false ∧
    ∀ pem key, IsPemBelow readDir keysDir pem → readKey pem = .ok key → (keys.game = some (gameOf pem) ∨
      ¬ ∃ pem', IsPemBelow readDir keysDir pem' ∧ keys.game = some (gameOf pem')) → f bhdPath (some key) = .ok false
  untouched : ∀ bhdPath ∉ archives, keys.byPath bhdPath = none

theorem Groups.find_of_mem {files : List PathBuf} {pemPaths : PemPathMap} (h : Groups files pemPaths) {pem : PathBuf}
    (hmem : pem ∈ files) : SortedVec.find gameKey pemPaths (byteKey (gameOf pem).bytes) =
      some (gameOf pem, files.filter (gameOf · = gameOf pem)) := by
  rw [h.find, if_neg]
  exact List.ne_nil_of_mem (List.mem_filter.2 ⟨hmem, by simp⟩)

/-- The games that have PEM files. -/
theorem Groups.find_ne_none {files : List PathBuf} {pemPaths : PemPathMap} (h : Groups files pemPaths) {game : Str} :
    SortedVec.find gameKey pemPaths (byteKey game.bytes) ≠ none ↔ ∃ pem ∈ files, gameOf pem = game := by
  constructor
  · intro hne
    rw [h.find] at hne
    split_ifs at hne with hnil
    · exact absurd rfl hne
    · obtain ⟨pem, hpem⟩ := List.exists_mem_of_ne_nil _ hnil
      exact ⟨pem, (List.mem_filter.1 hpem).1, by simpa using (List.mem_filter.1 hpem).2⟩
  · rintro ⟨pem, hmem, rfl⟩
    rw [h.find_of_mem hmem]
    exact Option.some_ne_none _

/-- The files of the groups. -/
theorem Groups.mem_pemFiles {files : List PathBuf} {pemPaths : PemPathMap} (h : Groups files pemPaths) {game : Str}
    {pem : PathBuf} : (game, pem) ∈ pemFiles pemPaths ↔ pem ∈ files ∧ gameOf pem = game := by
  rw [pemFiles, List.mem_flatMap]
  constructor
  · rintro ⟨⟨game', pems⟩, hmem, hpem⟩
    obtain ⟨pem', hpem, heq⟩ := List.mem_map.1 hpem
    cases heq
    have hfind : SortedVec.find gameKey pemPaths (byteKey game'.bytes) = some (game', pems) :=
      (find_eq_some h.ascending).2 ⟨hmem, rfl⟩
    rw [h.find] at hfind
    split_ifs at hfind with hnil
    cases hfind
    exact ⟨(List.mem_filter.1 hpem).1, by simpa using (List.mem_filter.1 hpem).2⟩
  · rintro ⟨hmem, rfl⟩
    obtain ⟨hgroup, -⟩ := (find_eq_some h.ascending).1 (h.find_of_mem hmem)
    exact ⟨_, hgroup, List.mem_map_of_mem (List.mem_filter.2 ⟨hmem, by simp⟩)⟩

theorem Groups.mem_candidates {files : List PathBuf} {pemPaths : PemPathMap} (h : Groups files pemPaths)
    {game : Option Str} {pem : PathBuf} (hmem : pem ∈ files)
    (hgame : game = some (gameOf pem) ∨ ¬ ∃ pem' ∈ files, game = some (gameOf pem')) :
    (gameOf pem, pem) ∈ candidates pemPaths game := by
  rcases hgame with rfl | hnone
  · rw [candidates, Option.bind_some, h.find_of_mem hmem]
    exact List.mem_flatMap.2 ⟨_, List.mem_singleton.2 rfl, List.mem_map_of_mem (List.mem_filter.2 ⟨hmem, by simp⟩)⟩
  · have hfind : (game.bind fun game => SortedVec.find gameKey pemPaths (byteKey game.bytes)) = none := by
      rcases game with _ | game
      · rfl
      · by_contra hne
        obtain ⟨pem', hmem', rfl⟩ := h.find_ne_none.1 hne
        exact hnone ⟨pem', hmem', rfl⟩
    rw [candidates, hfind]
    exact h.mem_pemFiles.2 ⟨hmem, rfl⟩

theorem KeysFound.toFindsKeys {ε : Type} {readDir : ReadDir ε} {keysDir : PathBuf} {files : List PathBuf}
    {pemPaths : PemPathMap} {readKey : PathBuf → Checked RsaKey} {f : BhdPath → Option RsaKey → Checked Bool}
    {archives : List BhdPath} {game : Option Str} {keys : Keys}
    (h : KeysFound readKey f pemPaths game archives keys) (hgroups : Groups files pemPaths)
    (hfiles : ∀ pem, pem ∈ files ↔ IsPemBelow readDir keysDir pem) :
    FindsKeys readDir keysDir readKey f archives game keys where
  given := h.given
  detected hnone g hg := by
    obtain ⟨bhdPath, hmem, pem, key, hpem, hkey, hopens⟩ := h.detected hnone g hg
    obtain ⟨hin, rfl⟩ := hgroups.mem_pemFiles.1 hpem
    exact ⟨bhdPath, hmem, pem, key, (hfiles pem).1 hin, rfl, hkey, hopens⟩
  plain := h.plain
  opens bhdPath key hkey := by
    obtain ⟨hmem, hplain, hopens, hgame, g, pem, hpem, hread, hof⟩ := h.opens bhdPath key hkey
    obtain ⟨hin, rfl⟩ := hgroups.mem_pemFiles.1 hpem
    refine ⟨hmem, hplain, hopens, hgame, pem, (hfiles pem).1 hin, hread, ?_⟩
    rintro g hg ⟨pem', hpem', hpemOf⟩
    exact hof g hg (hgroups.find_ne_none.2 ⟨pem', (hfiles pem').2 hpem', hpemOf⟩)
  missing bhdPath hmem hnone := by
    obtain ⟨hplain, hkeys⟩ := h.missing bhdPath hmem hnone
    refine ⟨hplain, fun pem key hpem hread hgame => ?_⟩
    simp only [← hfiles] at hpem hgame
    exact hkeys _ (hgroups.mem_candidates hpem hgame) key hread
  untouched := h.untouched

/-- **The keys of a provider**: if there are finitely many directories and the
    search succeeds, the keys that are found open their archives, and no key of the
    game opens those that are left out. -/
theorem findsKeys {ε : Type} {readDir : ReadDir ε} {provider : KeyProvider} {h : ℕ}
    {readKey : PathBuf → Checked RsaKey} {f : BhdPath → Option RsaKey → Checked Bool} {game : Option Str}
    (hheight : Height (subdirs readDir) h provider.keysDir) (harchives : provider.archives.Nodup) :
    ∃ n res, (∀ fuel, n ≤ fuel → provider.intoKeysForGameWithFilter readDir fuel readKey f game = some res) ∧
      ∀ keys, res = .ok keys → FindsKeys readDir provider.keysDir readKey f provider.archives game keys := by
  rcases hread : readDir provider.keysDir with e | entries
  · refine ⟨0, .error .error, fun fuel _ => ?_, fun keys hkeys => by cases hkeys⟩
    rw [KeyProvider.intoKeysForGameWithFilter, findPemPaths, recursiveReadFiles, hread]
    rfl
  obtain ⟨items, result, hitems, ⟨n, hn⟩, hresult⟩ := findPemPaths_eq hheight hread
  rcases hresult with ⟨e, -, rfl⟩ | ⟨pemPaths, -, rfl, hgroups⟩
  · refine ⟨n, .error .error, fun fuel hle => ?_, fun keys hkeys => by cases hkeys⟩
    rw [KeyProvider.intoKeysForGameWithFilter, hn fuel hle]
    rfl
  refine ⟨n, Dvdbnd.intoKeysForGameWithFilter readKey f pemPaths provider.archives game, fun fuel hle => ?_,
    fun keys hkeys => ?_⟩
  · rw [KeyProvider.intoKeysForGameWithFilter, hn fuel hle]
    rfl
  · have hfound := keysFound_of_ok hgroups.ascending harchives hkeys
    have hbelow : ∀ pem, pem ∈ (items.filterMap Except.toOption).filter isPem ↔
        IsPemBelow readDir provider.keysDir pem := by
      intro pem
      rw [List.mem_filter, hitems.mem_files]
      exact ⟨fun h => ⟨h.2, h.1⟩, fun h => ⟨h.below, h.isPem⟩⟩
    exact hfound.toFindsKeys hgroups hbelow

theorem findsKeys_gameFolder : ∃ n res,
    (∀ fuel, n ≤ fuel → KeyProvider.intoKeysForGameWithFilter ⟨[⟨[], "data1.bhd".toList⟩], []⟩
      (gameFolder "data1.pem".toUTF8.toList) fuel (fun _ => .ok ⟨77, 65537, 1, Nat.one_pos⟩)
      (fun _ key => .ok key.isSome) none = some res) ∧
    ∀ keys, res = .ok keys → FindsKeys (gameFolder "data1.pem".toUTF8.toList) []
      (fun _ => .ok ⟨77, 65537, 1, Nat.one_pos⟩) (fun _ key => .ok key.isSome) [⟨[], "data1.bhd".toList⟩] none keys :=
  @findsKeys _ _ ⟨[⟨[], "data1.bhd".toList⟩], []⟩ 2 _ _ none (gameFolder_height _) (List.nodup_singleton _)

end Fsvfs.Dvdbnd
