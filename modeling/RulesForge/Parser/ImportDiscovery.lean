import Mathlib.Data.Finset.Card
import Mathlib.Data.Finset.SDiff
import Mathlib.Logic.Relation

/-!
# Import discovery

`discover_and_merge_files` (`src/rfl_parser.cpp`) parses a rule file, merges what it declares into
one parser state and goes on with the files it imports. The recursion follows the contents of the
files, which may import each other in cycles: the set of visited files ends it.

The file system is a finite map from canonical paths to nodes, and several spellings of a path may
name one node. The parser is a parameter.
-/

namespace RulesForge

/-! ### Paths -/

/-- `path::operator/`. -/
def joinPath (base relative : String) : String :=
  if relative.toList.head? = some '/' then relative
  else if base = "" ∨ base.toList.getLast? = some '/' then base ++ relative
  else base ++ "/" ++ relative

/-- The last component of a path, with what is before it. -/
def splitFilename (path : List Char) : List Char × List Char :=
  let filename := (path.reverse.takeWhile (· ≠ '/')).reverse
  (path.take (path.length - filename.length), filename)

/-- A file name without its extension, and the extension: from the last dot on, unless the name
starts with it. The names `.` and `..` have none. -/
def splitExtension (filename : List Char) : List Char × List Char :=
  let afterDot := (filename.reverse.takeWhile (· ≠ '.')).reverse
  let stem := filename.take (filename.length - afterDot.length - 1)
  if filename = ['.', '.'] ∨ '.' ∉ filename ∨ stem = [] then (filename, [])
  else (stem, '.' :: afterDot)

/-- `path::extension`. -/
def pathExtension (path : String) : String :=
  String.ofList (splitExtension (splitFilename path.toList).2).2

/-- `path::replace_extension`. -/
def replaceExtension (path extension : String) : String :=
  let (directory, filename) := splitFilename path.toList
  String.ofList (directory ++ (splitExtension filename).1) ++ extension

/-! ### The file system -/

/-- What is at a canonical path. A file may be unreadable, and a directory lists its entries in
the order in which they are iterated over. -/
inductive FileNode where
  | file (content : Option String)
  | directory (names : List String)
  | other

/-- A finite file system. `canonical` gives the canonical path of a spelling, or the text of the
error. -/
structure FileSystem where
  nodes : List (String × FileNode)
  canonical : String → Except String String
  canonical_mem : ∀ {path c}, canonical path = .ok c → c ∈ nodes.map Prod.fst

namespace FileSystem

variable (fs : FileSystem)

def node (path : String) : Option FileNode :=
  match fs.canonical path with
  | .error _ => none
  | .ok c => fs.nodes.lookup c

def isRegularFile (path : String) : Bool :=
  match fs.node path with
  | some (.file _) => true
  | _ => false

def isDirectory (path : String) : Bool :=
  match fs.node path with
  | some (.directory _) => true
  | _ => false

/-- The paths of a directory's entries. -/
def directoryEntries (path : String) : List String :=
  match fs.node path with
  | some (.directory names) => names.map (joinPath path)
  | _ => []

/-- The content of a path that can be opened; a directory reads as empty. -/
def read (path : String) : Option String :=
  match fs.node path with
  | some (.file content) => content
  | some (.directory _) => some ""
  | _ => none

end FileSystem

/-! ### Parser states -/

/-- The lists of a parser state that are merged. -/
inductive ItemKind where
  | rules | declarations | enums | schemaImports | queries | globals | functions
  deriving DecidableEq, Repr

variable {Item : ItemKind → Type}

/-- What a file declares: its imports, and items of each kind. -/
structure ParserState (Item : ItemKind → Type) where
  parsedImports : List String := []
  items : (kind : ItemKind) → List (Item kind) := fun _ ↦ []

structure StructuredError where
  fileName : String := ""
  message : String
  deriving DecidableEq, Repr

structure ParsingResult where
  success : Bool := true
  errors : List StructuredError := []

def ParsingResult.fail (result : ParsingResult) (error : StructuredError) : ParsingResult :=
  { success := false, errors := result.errors ++ [error] }

/-- `rfl_parse_lemon`, on the content of a file and the name of its source. -/
abbrev RflParser (Item : ItemKind → Type) :=
  (content sourceName : String) → ParserState Item × List StructuredError

/-- Whether a text has no character but white space. -/
def isBlank (content : String) : Bool :=
  content.toList.all fun c ↦ c = ' ' ∨ c = '\t' ∨ c = '\r' ∨ c = '\n'

/-- `parse_file_to_local_state`. The source names of schema imports are left to the parser. -/
def parseFileToLocalState (fs : FileSystem) (parse : RflParser Item) (path : String)
    (result : ParsingResult) : ParserState Item × ParsingResult :=
  match fs.read path with
  | none => ({}, result.fail { fileName := path, message := "Could not open file." })
  | some content =>
    if isBlank content then ({}, result)
    else
      let (state, errors) := parse content path
      let errors := result.errors ++ errors
      (state, { success := result.success && errors.isEmpty, errors := errors })

/-- The items of a file after those that are there already. The imports are not merged. -/
def ParserState.merge (state other : ParserState Item) : ParserState Item :=
  { state with items := fun kind ↦ state.items kind ++ other.items kind }

/-! ### Discovery -/

structure FileDiscoveryContext (Item : ItemKind → Type) where
  state : ParserState Item := {}
  result : ParsingResult := {}
  visitedFiles : List String := []

/-- The files that an import stands for, in the order in which they are gone into: those of the
first base directory that has the import. A wildcard stands for the rule files of a directory. -/
def resolveImport (fs : FileSystem) (baseDirs : List String) (importStr : String) :
    Option (List String) :=
  let isWildcard := ['.', '*'].isSuffixOf importStr.toList
  let pathToFind := if isWildcard then importStr.toList.take (importStr.length - 2)
    else importStr.toList
  let relativeDir := String.ofList (pathToFind.map fun c ↦ if c = '.' then '/' else c)
  baseDirs.findSome? fun baseDir ↦
    let fullPath := joinPath baseDir relativeDir
    if isWildcard then
      if fs.isDirectory fullPath then
        some ((fs.directoryEntries fullPath).filter fun entry ↦
          fs.isRegularFile entry && pathExtension entry == ".rfl")
      else none
    else
      let fullPath := replaceExtension fullPath ".rfl"
      if fs.isRegularFile fullPath then some [fullPath] else none

/-- One round of the loop over the imports of the file at a path, with the function that goes into
a file. -/
def mergeImport (fs : FileSystem) (baseDirs : List String)
    (discover : String → FileDiscoveryContext Item → Option (FileDiscoveryContext Item))
    (path : String) (context : FileDiscoveryContext Item) (importStr : String) :
    Option (FileDiscoveryContext Item) :=
  if !context.result.success then some context
  else
    match resolveImport fs baseDirs importStr with
    | some files => files.foldlM (fun context file ↦ discover file context) context
    | none =>
      some { context with
        result := context.result.fail
          { fileName := path, message := "Could not resolve import: " ++ importStr } }

/-- The context after a file has been parsed. -/
def FileDiscoveryContext.visit (context : FileDiscoveryContext Item) (canonicalPath : String)
    (result : ParsingResult) : FileDiscoveryContext Item :=
  { context with
    result := result, visitedFiles := context.visitedFiles ++ [canonicalPath] }

/-- `discover_and_merge_files`, cut off at a depth of recursion: the value is `none` where the
recursion goes deeper. -/
def discoverAndMergeFiles (fs : FileSystem) (parse : RflParser Item) (baseDirs : List String) :
    ℕ → String → FileDiscoveryContext Item → Option (FileDiscoveryContext Item)
  | 0, _, _ => none
  | depth + 1, path, context =>
    match fs.canonical path with
    | .error what =>
      some { context with
        result := context.result.fail { message := "File system error: " ++ what } }
    | .ok canonicalPath =>
      if canonicalPath ∈ context.visitedFiles then some context
      else
        let (localState, result) := parseFileToLocalState fs parse path context.result
        let context := context.visit canonicalPath result
        if !result.success then some context
        else
          localState.parsedImports.foldlM
            (mergeImport fs baseDirs (discoverAndMergeFiles fs parse baseDirs depth) path)
            { context with state := context.state.merge localState }

/-! ### Loops -/

section Loops

variable {σ α : Type} {f g : σ → α → Option σ} {l : List α} {s s' : σ}

/-- A loop whose rounds are also rounds of another loop. -/
theorem foldlM_some_mono (h : ∀ a ∈ l, ∀ s s', f s a = some s' → g s a = some s')
    (hf : l.foldlM f s = some s') : l.foldlM g s = some s' := by
  induction l generalizing s with
  | nil => exact hf
  | cons a l ih =>
    rw [List.foldlM_cons] at hf ⊢
    obtain ⟨s₁, hs₁, hrest⟩ := Option.bind_eq_some_iff.mp hf
    refine Option.bind_eq_some_iff.mpr ⟨s₁, h a List.mem_cons_self s s₁ hs₁, ?_⟩
    exact ih (fun a ha ↦ h a (List.mem_cons_of_mem _ ha)) hrest

/-- A loop whose rounds all end, and keep a property. -/
theorem foldlM_isSome {P : σ → Prop} (h : ∀ a ∈ l, ∀ s, P s → ∃ s', f s a = some s' ∧ P s')
    (hs : P s) : ∃ s', l.foldlM f s = some s' ∧ P s' := by
  induction l generalizing s with
  | nil => exact ⟨s, rfl, hs⟩
  | cons a l ih =>
    obtain ⟨s₁, hround, hs₁⟩ := h a List.mem_cons_self s hs
    obtain ⟨s', hrest, hs'⟩ := ih (fun a ha ↦ h a (List.mem_cons_of_mem _ ha)) hs₁
    exact ⟨s', by rw [List.foldlM_cons, hround]; exact hrest, hs'⟩

end Loops

/-! ### Termination -/

section Termination

variable (fs : FileSystem) (parse : RflParser Item) (baseDirs : List String)

/-- The canonical paths that have not been visited. -/
def unvisited (visitedFiles : List String) : Finset String :=
  (fs.nodes.map Prod.fst).toFinset \ visitedFiles.toFinset

theorem unvisited_subset {visitedFiles visitedFiles' : List String}
    (h : visitedFiles ⊆ visitedFiles') : unvisited fs visitedFiles' ⊆ unvisited fs visitedFiles := by
  refine Finset.sdiff_subset_sdiff subset_rfl fun c hc ↦ ?_
  exact List.mem_toFinset.mpr (h (List.mem_toFinset.mp hc))

variable {fs} in
theorem unvisited_append_lt {visitedFiles : List String} {path c : String}
    (hc : fs.canonical path = .ok c) (hnew : c ∉ visitedFiles) :
    (unvisited fs (visitedFiles ++ [c])).card < (unvisited fs visitedFiles).card := by
  refine Finset.card_lt_card ⟨unvisited_subset fs (List.subset_append_left _ _), fun hsub ↦ ?_⟩
  have hmem : c ∈ unvisited fs visitedFiles :=
    Finset.mem_sdiff.mpr ⟨List.mem_toFinset.mpr (fs.canonical_mem hc), by simpa using hnew⟩
  have hnot := (Finset.mem_sdiff.mp (hsub hmem)).2
  simp at hnot

/-- One round ends when going into a file does, and files stay visited. -/
theorem mergeImport_isSome {visitedFiles : List String}
    {discover : String → FileDiscoveryContext Item → Option (FileDiscoveryContext Item)}
    (path importStr : String) {context : FileDiscoveryContext Item}
    (hvisited : visitedFiles ⊆ context.visitedFiles)
    (h : ∀ file s, visitedFiles ⊆ s.visitedFiles →
      ∃ s', discover file s = some s' ∧ s.visitedFiles ⊆ s'.visitedFiles) :
    ∃ context', mergeImport fs baseDirs discover path context importStr = some context' ∧
      visitedFiles ⊆ context'.visitedFiles := by
  unfold mergeImport
  split
  · exact ⟨_, rfl, hvisited⟩
  · cases resolveImport fs baseDirs importStr with
    | none => exact ⟨_, rfl, hvisited⟩
    | some files =>
      refine foldlM_isSome (P := fun s : FileDiscoveryContext Item ↦ visitedFiles ⊆ s.visitedFiles)
        ?_ hvisited
      intro file _ s hs
      obtain ⟨s', hs', hsub⟩ := h file s hs
      exact ⟨s', hs', List.Subset.trans hs hsub⟩

/-- The recursion is no deeper than there are files left, and files stay visited. -/
theorem discoverAndMergeFiles_isSome (depth : ℕ) (path : String)
    (context : FileDiscoveryContext Item)
    (hdepth : (unvisited fs context.visitedFiles).card < depth) :
    ∃ context', discoverAndMergeFiles fs parse baseDirs depth path context = some context' ∧
      context.visitedFiles ⊆ context'.visitedFiles := by
  induction depth generalizing path context with
  | zero => exact absurd hdepth (Nat.not_lt_zero _)
  | succ depth ih =>
    unfold discoverAndMergeFiles
    cases hcanonical : fs.canonical path with
    | error what => exact ⟨_, rfl, List.Subset.refl _⟩
    | ok c =>
      dsimp only
      split
      · exact ⟨_, rfl, List.Subset.refl _⟩
      · next hnew =>
        split
        · exact ⟨_, rfl, List.subset_append_left _ _⟩
        · have hless : ∀ {s : FileDiscoveryContext Item},
              context.visitedFiles ++ [c] ⊆ s.visitedFiles →
              (unvisited fs s.visitedFiles).card < depth := by
            intro s hs
            have hlt := unvisited_append_lt hcanonical hnew
            have hle := Finset.card_le_card (unvisited_subset fs hs)
            omega
          -- what is visited now stays visited, so every recursive call has less left
          refine (foldlM_isSome (P := fun s : FileDiscoveryContext Item ↦
            context.visitedFiles ++ [c] ⊆ s.visitedFiles) ?_ (List.Subset.refl _)).imp
            fun context' hend ↦ ⟨hend.1, fun c hc ↦ hend.2 (List.mem_append_left _ hc)⟩
          intro importStr _ s hs
          exact mergeImport_isSome fs baseDirs path importStr hs
            fun file s hs ↦ ih file s (hless hs)

/-- A greater depth makes no difference where the recursion ends. -/
theorem discoverAndMergeFiles_succ {depth : ℕ} {path : String}
    {context context' : FileDiscoveryContext Item}
    (h : discoverAndMergeFiles fs parse baseDirs depth path context = some context') :
    discoverAndMergeFiles fs parse baseDirs (depth + 1) path context = some context' := by
  induction depth generalizing path context context' with
  | zero => cases h
  | succ depth ih =>
    rw [discoverAndMergeFiles] at h ⊢
    cases hcanonical : fs.canonical path with
    | error what => simpa only [hcanonical] using h
    | ok c =>
      simp only [hcanonical] at h ⊢
      split
      · next hmem => simpa only [hmem, if_true] using h
      · next hmem =>
        rw [if_neg hmem] at h
        split
        · next hfail => simpa only [hfail, if_true] using h
        · next hok =>
          rw [if_neg hok] at h
          refine foldlM_some_mono (fun importStr _ s s' hs ↦ ?_) h
          unfold mergeImport at hs ⊢
          split
          · next hfail => simpa only [hfail, if_true] using hs
          · next hgo =>
            rw [if_neg hgo] at hs
            cases hresolve : resolveImport fs baseDirs importStr with
            | none => simpa only [hresolve] using hs
            | some files =>
              simp only [hresolve] at hs ⊢
              exact foldlM_some_mono (fun file _ s s' hs ↦ ih hs) hs

theorem discoverAndMergeFiles_mono {depth depth' : ℕ} (hle : depth ≤ depth') {path : String}
    {context context' : FileDiscoveryContext Item}
    (h : discoverAndMergeFiles fs parse baseDirs depth path context = some context') :
    discoverAndMergeFiles fs parse baseDirs depth' path context = some context' := by
  induction hle with
  | refl => exact h
  | step _ ih => exact discoverAndMergeFiles_succ fs parse baseDirs ih

end Termination

/-! ### Exploration -/

section Exploration

variable (fs : FileSystem) (parse : RflParser Item) (baseDirs : List String)

/-- What the file at a path declares. -/
def localStateOf (path : String) : ParserState Item :=
  match fs.read path with
  | none => {}
  | some content => if isBlank content then {} else (parse content path).1

/-- A file imports another one. -/
def Imports (c d : String) : Prop :=
  ∃ path, fs.canonical path = .ok c ∧ ∃ importStr ∈ (localStateOf fs parse path).parsedImports,
    ∃ files, resolveImport fs baseDirs importStr = some files ∧
      ∃ file ∈ files, fs.canonical file = .ok d

/-- The files that are reached from the file at a path through imports. -/
def FileReached (root c : String) : Prop :=
  ∃ r, fs.canonical root = .ok r ∧ Relation.ReflTransGen (Imports fs parse baseDirs) r c

/-- A file that has been merged, under the path by which it was reached first. -/
structure Visit where
  path : String
  canonicalPath : String

/-- The items of visited files, in order. -/
def mergeVisits (state : ParserState Item) (visits : List Visit) : ParserState Item :=
  visits.foldl (fun state v ↦ state.merge (localStateOf fs parse v.path)) state

theorem mergeVisits_items (state : ParserState Item) (visits : List Visit) (kind : ItemKind) :
    (mergeVisits fs parse state visits).items kind =
      state.items kind ++ (visits.map fun v ↦ (localStateOf fs parse v.path).items kind).flatten := by
  induction visits generalizing state with
  | nil => exact (List.append_nil _).symm
  | cons v visits ih =>
    rw [mergeVisits, List.foldl_cons, ← mergeVisits, ih]
    simp [ParserState.merge]

/-- The file at a path has been visited. -/
def FileVisited (visitedFiles : List String) (file : String) : Prop :=
  ∃ d, fs.canonical file = .ok d ∧ d ∈ visitedFiles

/-- Every file that an import stands for has been visited. -/
def ImportVisited (visitedFiles : List String) (importStr : String) : Prop :=
  ∃ files, resolveImport fs baseDirs importStr = some files ∧
    ∀ file ∈ files, FileVisited fs visitedFiles file

/-- What a part of the discovery has done: the files it has visited were new and are reached from
a set of files, their items have been merged in order, and all that they import is visited. -/
structure Explored (Q : Set String) (visits : List Visit)
    (context context' : FileDiscoveryContext Item) : Prop where
  visited : context'.visitedFiles = context.visitedFiles ++ visits.map (·.canonicalPath)
  state : context'.state = mergeVisits fs parse context.state visits
  canonical : ∀ v ∈ visits, fs.canonical v.path = .ok v.canonicalPath
  nodup : (visits.map (·.canonicalPath)).Nodup
  disjoint : ∀ v ∈ visits, v.canonicalPath ∉ context.visitedFiles
  reached : ∀ v ∈ visits, ∃ c ∈ Q,
    Relation.ReflTransGen (Imports fs parse baseDirs) c v.canonicalPath
  closed : ∀ v ∈ visits, ∀ importStr ∈ (localStateOf fs parse v.path).parsedImports,
    ImportVisited fs baseDirs context'.visitedFiles importStr

variable {fs parse baseDirs} {Q : Set String} {visits visits' : List Visit}
  {context context' context'' : FileDiscoveryContext Item}

theorem FileVisited.mono {visitedFiles visitedFiles' : List String} {file : String}
    (hsub : visitedFiles ⊆ visitedFiles') (h : FileVisited fs visitedFiles file) :
    FileVisited fs visitedFiles' file :=
  h.imp fun _ hd ↦ ⟨hd.1, hsub hd.2⟩

theorem ImportVisited.mono {visitedFiles visitedFiles' : List String} {importStr : String}
    (hsub : visitedFiles ⊆ visitedFiles') (h : ImportVisited fs baseDirs visitedFiles importStr) :
    ImportVisited fs baseDirs visitedFiles' importStr :=
  h.imp fun _ hfiles ↦ ⟨hfiles.1, fun file hfile ↦ (hfiles.2 file hfile).mono hsub⟩

theorem Explored.subset (h : Explored fs parse baseDirs Q visits context context') :
    context.visitedFiles ⊆ context'.visitedFiles := by
  rw [h.visited]
  exact List.subset_append_left _ _

theorem Explored.refl (context : FileDiscoveryContext Item) :
    Explored fs parse baseDirs Q [] context context where
  visited := by simp
  state := rfl
  canonical := by simp
  nodup := List.nodup_nil
  disjoint := by simp
  reached := by simp
  closed := by simp

theorem Explored.trans (h : Explored fs parse baseDirs Q visits context context')
    (h' : Explored fs parse baseDirs Q visits' context' context'') :
    Explored fs parse baseDirs Q (visits ++ visits') context context'' where
  visited := by rw [h'.visited, h.visited, List.map_append, List.append_assoc]
  state := by rw [h'.state, h.state, mergeVisits, mergeVisits, mergeVisits, List.foldl_append]
  canonical := List.forall_mem_append.mpr ⟨h.canonical, h'.canonical⟩
  nodup := by
    rw [List.map_append]
    refine h.nodup.append h'.nodup fun c hc hc' ↦ ?_
    obtain ⟨v, hv, rfl⟩ := List.mem_map.mp hc'
    refine h'.disjoint v hv ?_
    rw [h.visited]
    exact List.mem_append_right _ hc
  disjoint := List.forall_mem_append.mpr
    ⟨h.disjoint, fun v hv hmem ↦ h'.disjoint v hv (h.subset hmem)⟩
  reached := List.forall_mem_append.mpr ⟨h.reached, h'.reached⟩
  closed := List.forall_mem_append.mpr
    ⟨fun v hv importStr himport ↦ (h.closed v hv importStr himport).mono h'.subset, h'.closed⟩

/-- Files that are reached from files which those of `Q` import. -/
theorem Explored.mono {R : Set String}
    (h : Explored fs parse baseDirs R visits context context')
    (hR : ∀ d ∈ R, ∃ c ∈ Q, Relation.ReflTransGen (Imports fs parse baseDirs) c d) :
    Explored fs parse baseDirs Q visits context context' :=
  { h with
    reached := fun v hv ↦ by
      obtain ⟨d, hd, hreach⟩ := h.reached v hv
      obtain ⟨c, hc, hpath⟩ := hR d hd
      exact ⟨c, hc, hpath.trans hreach⟩ }

/-- A loop whose rounds explore, each until something is done that stays done. -/
theorem foldlM_explored {α : Type} {l : List α}
    {f : FileDiscoveryContext Item → α → Option (FileDiscoveryContext Item)}
    (Done : List String → α → Prop)
    (hmono : ∀ {a visited visited'}, visited ⊆ visited' → Done visited a → Done visited' a)
    (hround : ∀ a ∈ l, ∀ s s', f s a = some s' → s'.result.success = true →
      s.result.success = true ∧
        ∃ visits, Explored fs parse baseDirs Q visits s s' ∧ Done s'.visitedFiles a)
    (h : l.foldlM f context = some context') (hsuccess : context'.result.success = true) :
    context.result.success = true ∧ ∃ visits, Explored fs parse baseDirs Q visits context context' ∧
      ∀ a ∈ l, Done context'.visitedFiles a := by
  induction l generalizing context with
  | nil =>
    obtain rfl := Option.some.inj h
    exact ⟨hsuccess, [], Explored.refl _, by simp⟩
  | cons a l ih =>
    rw [List.foldlM_cons] at h
    obtain ⟨s, hs, hrest⟩ := Option.bind_eq_some_iff.mp h
    obtain ⟨hs', visits', hexplored', hdone'⟩ :=
      ih (fun a ha ↦ hround a (List.mem_cons_of_mem _ ha)) hrest
    obtain ⟨hstart, visits, hexplored, hdone⟩ := hround a List.mem_cons_self context s hs hs'
    refine ⟨hstart, visits ++ visits', hexplored.trans hexplored', ?_⟩
    exact List.forall_mem_cons.mpr ⟨hmono hexplored'.subset hdone, hdone'⟩

variable (fs parse) in
theorem parseFileToLocalState_spec (path : String) (result : ParsingResult) :
    (parseFileToLocalState fs parse path result).1 = localStateOf fs parse path ∧
      ((parseFileToLocalState fs parse path result).2.success = true → result.success = true) := by
  unfold parseFileToLocalState localStateOf
  cases fs.read path with
  | none => simp [ParsingResult.fail]
  | some content =>
    dsimp only
    split
    · exact ⟨rfl, fun h ↦ h⟩
    · refine ⟨rfl, fun h ↦ ?_⟩
      simp only [Bool.and_eq_true] at h
      exact h.1

theorem mergeImport_explored {path importStr : String}
    {discover : String → FileDiscoveryContext Item → Option (FileDiscoveryContext Item)}
    (hdiscover : ∀ file s s', discover file s = some s' → s'.result.success = true →
      s.result.success = true ∧
        ∃ visits, Explored fs parse baseDirs {c | fs.canonical file = .ok c} visits s s' ∧
          FileVisited fs s'.visitedFiles file)
    (h : mergeImport fs baseDirs discover path context importStr = some context')
    (hsuccess : context'.result.success = true) :
    context.result.success = true ∧ ∃ visits,
      Explored fs parse baseDirs {d | ∃ files, resolveImport fs baseDirs importStr = some files ∧
        ∃ file ∈ files, fs.canonical file = .ok d} visits context context' ∧
      ImportVisited fs baseDirs context'.visitedFiles importStr := by
  unfold mergeImport at h
  split at h
  · next hfail =>
    obtain rfl := Option.some.inj h
    simp [hsuccess] at hfail
  · cases hresolve : resolveImport fs baseDirs importStr with
    | none =>
      simp only [hresolve, Option.some.injEq] at h
      subst h
      cases hsuccess
    | some files =>
      simp only [hresolve] at h
      obtain ⟨hstart, visits, hexplored, hdone⟩ := foldlM_explored (FileVisited fs)
        (fun hsub ↦ FileVisited.mono hsub)
        (fun file hfile s s' hs hs' ↦ by
          obtain ⟨hstart, visits, hexplored, hdone⟩ := hdiscover file s s' hs hs'
          exact ⟨hstart, visits, hexplored.mono (Q := {d | ∃ file ∈ files, fs.canonical file = .ok d})
            fun d hd ↦ ⟨d, ⟨file, hfile, hd⟩, .refl⟩, hdone⟩) h hsuccess
      refine ⟨hstart, visits, hexplored.mono fun d hd ↦ ⟨d, ⟨files, rfl, hd⟩, .refl⟩, ?_⟩
      exact ⟨files, hresolve, hdone⟩

/-- **What a successful discovery has done**: the new files are those reached from the file at the
path, except for files visited before. -/
theorem discoverAndMergeFiles_explored {depth : ℕ} {path : String}
    (h : discoverAndMergeFiles fs parse baseDirs depth path context = some context')
    (hsuccess : context'.result.success = true) :
    context.result.success = true ∧ ∃ visits,
      Explored fs parse baseDirs {c | fs.canonical path = .ok c} visits context context' ∧
      FileVisited fs context'.visitedFiles path := by
  induction depth generalizing path context context' with
  | zero => cases h
  | succ depth ih =>
    rw [discoverAndMergeFiles] at h
    cases hcanonical : fs.canonical path with
    | error what =>
      simp only [hcanonical, Option.some.injEq] at h
      subst h
      cases hsuccess
    | ok c =>
      simp only [hcanonical] at h
      split at h
      · next hmem =>
        obtain rfl := Option.some.inj h
        exact ⟨hsuccess, [], Explored.refl _, c, hcanonical, hmem⟩
      · next hnew =>
        obtain ⟨hlocal, hparse⟩ := parseFileToLocalState_spec fs parse path context.result
        split at h
        · next hfail =>
          obtain rfl := Option.some.inj h
          change (parseFileToLocalState fs parse path context.result).2.success = true at hsuccess
          simp [hsuccess] at hfail
        · rw [hlocal] at h
          obtain ⟨hstart, visits, hexplored, hdone⟩ := foldlM_explored
            (ImportVisited fs baseDirs) (fun hsub ↦ ImportVisited.mono hsub)
            (fun importStr himport s s' hs hs' ↦ by
              obtain ⟨hstart, visits, hexplored, hdone⟩ :=
                mergeImport_explored (fun file s s' ↦ ih) hs hs'
              refine ⟨hstart, visits, hexplored.mono (Q := {d | Imports fs parse baseDirs c d})
                fun d hd ↦ ⟨d, ?_, .refl⟩, hdone⟩
              exact ⟨path, hcanonical, importStr, himport, hd⟩) h hsuccess
          refine ⟨hparse hstart, ⟨path, c⟩ :: visits, ?_, c, hcanonical, ?_⟩
          · refine ⟨?_, ?_, ?_, ?_, ?_, ?_, ?_⟩
            · rw [hexplored.visited]
              simp [FileDiscoveryContext.visit]
            · rw [hexplored.state]
              rfl
            · exact List.forall_mem_cons.mpr ⟨hcanonical, hexplored.canonical⟩
            · refine List.nodup_cons.mpr ⟨fun hmem ↦ ?_, hexplored.nodup⟩
              obtain ⟨v, hv, hvc⟩ := List.mem_map.mp hmem
              refine hexplored.disjoint v hv ?_
              rw [hvc]
              exact List.mem_append_right _ (List.mem_singleton_self c)
            · refine List.forall_mem_cons.mpr ⟨hnew, fun v hv hmem ↦ ?_⟩
              exact hexplored.disjoint v hv (List.mem_append_left _ hmem)
            · refine List.forall_mem_cons.mpr ⟨⟨c, rfl, .refl⟩, fun v hv ↦ ?_⟩
              obtain ⟨d, hd, hreach⟩ := hexplored.reached v hv
              exact ⟨c, rfl, .head hd hreach⟩
            · exact List.forall_mem_cons.mpr ⟨hdone, hexplored.closed⟩
          · refine hexplored.subset ?_
            exact List.mem_append_right _ (List.mem_singleton_self c)

end Exploration

/-! ### The files that are merged -/

section Discovery

variable {fs : FileSystem} {parse : RflParser Item} {baseDirs : List String}

/-- The name of a source has no bearing on what a file imports. -/
theorem localStateOf_parsedImports {path path' c : String}
    (hparse : ∀ content name name',
      (parse content name).1.parsedImports = (parse content name').1.parsedImports)
    (h : fs.canonical path = .ok c) (h' : fs.canonical path' = .ok c) :
    (localStateOf fs parse path).parsedImports = (localStateOf fs parse path').parsedImports := by
  have hread : fs.read path = fs.read path' := by
    simp only [FileSystem.read, FileSystem.node, h, h']
  unfold localStateOf
  rw [hread]
  cases fs.read path' with
  | none => rfl
  | some content =>
    dsimp only
    split
    · rfl
    · exact hparse content path path'

/-- **What a discovery that starts with no file visited ends with.** -/
theorem Explored.mem_iff {root : String} {visits : List Visit}
    {context : FileDiscoveryContext Item}
    (hparse : ∀ content name name',
      (parse content name).1.parsedImports = (parse content name').1.parsedImports)
    (h : Explored fs parse baseDirs {c | fs.canonical root = .ok c} visits {} context)
    (hroot : FileVisited fs context.visitedFiles root) (c : String) :
    c ∈ visits.map (·.canonicalPath) ↔ FileReached fs parse baseDirs root c := by
  have hvisited : context.visitedFiles = visits.map (·.canonicalPath) := by
    rw [h.visited]
    exact List.nil_append _
  constructor
  · intro hc
    obtain ⟨v, hv, rfl⟩ := List.mem_map.mp hc
    obtain ⟨r, hr, hreach⟩ := h.reached v hv
    exact ⟨r, hr, hreach⟩
  · rintro ⟨r, hr, hreach⟩
    -- along the imports, every file that is reached has been visited
    induction hreach with
    | refl =>
      obtain ⟨d, hd, hmem⟩ := hroot
      rw [hr] at hd
      cases hd
      exact hvisited ▸ hmem
    | tail _ himports ih =>
      obtain ⟨v, hv, rfl⟩ := List.mem_map.mp ih
      obtain ⟨path, hpath, importStr, himport, files, hfiles, file, hfile, hd⟩ := himports
      rw [localStateOf_parsedImports hparse hpath (h.canonical v hv)] at himport
      obtain ⟨files', hfiles', hall⟩ := h.closed v hv importStr himport
      rw [hfiles] at hfiles'
      cases hfiles'
      obtain ⟨d', hd', hmem⟩ := hall file hfile
      rw [hd] at hd'
      cases hd'
      exact hvisited ▸ hmem

variable (fs parse baseDirs) in
/-- **Import discovery ends and merges every file once**: the recursion from a root is no deeper
than the file system has nodes, and after a success the merged items are, in order, those of the
files that are reached from the root, each of them once and of no other file. -/
theorem discovery_exact
    (hparse : ∀ content name name',
      (parse content name).1.parsedImports = (parse content name').1.parsedImports)
    (root : String) :
    ∃ context : FileDiscoveryContext Item,
      (∀ depth, fs.nodes.length < depth →
        discoverAndMergeFiles fs parse baseDirs depth root {} = some context) ∧
      (context.result.success = true →
        ∃ visits : List Visit, (visits.map (·.canonicalPath)).Nodup ∧
          (∀ c, c ∈ visits.map (·.canonicalPath) ↔ FileReached fs parse baseDirs root c) ∧
          (∀ v ∈ visits, fs.canonical v.path = .ok v.canonicalPath) ∧
          ∀ kind, context.state.items kind =
            (visits.map fun v ↦ (localStateOf fs parse v.path).items kind).flatten) := by
  have hcard : (unvisited fs []).card < fs.nodes.length + 1 := by
    have hle := Finset.card_le_card (Finset.sdiff_subset (s := (fs.nodes.map Prod.fst).toFinset)
      (t := ([] : List String).toFinset))
    have hnodes := List.toFinset_card_le (fs.nodes.map Prod.fst)
    rw [List.length_map] at hnodes
    exact Nat.lt_succ_of_le (hle.trans hnodes)
  obtain ⟨context, hcontext, -⟩ :=
    discoverAndMergeFiles_isSome fs parse baseDirs (fs.nodes.length + 1) root {} hcard
  refine ⟨context, fun depth hdepth ↦ discoverAndMergeFiles_mono fs parse baseDirs hdepth hcontext,
    fun hsuccess ↦ ?_⟩
  obtain ⟨-, visits, hexplored, hroot⟩ := discoverAndMergeFiles_explored hcontext hsuccess
  refine ⟨visits, hexplored.nodup, hexplored.mem_iff hparse hroot, hexplored.canonical,
    fun kind ↦ ?_⟩
  rw [hexplored.state, mergeVisits_items]
  rfl

/-- Two rule files that import each other, and a second spelling of the first one. -/
def cyclicFiles : FileSystem where
  nodes := [("/r/a.rfl", .file (some "import b")), ("/r/b.rfl", .file (some "import a"))]
  canonical path :=
    if path = "/r/a.rfl" ∨ path = "/r/./a.rfl" then .ok "/r/a.rfl"
    else if path = "/r/b.rfl" then .ok "/r/b.rfl"
    else .error "No such file or directory"
  canonical_mem := by
    intro path c h
    split at h
    · cases h
      exact List.mem_cons_self
    · split at h
      · cases h
        exact List.mem_cons_of_mem _ List.mem_cons_self
      · cases h

/-- A parser for these files. Each declares one rule. -/
def parseCyclic : RflParser fun _ ↦ String := fun content _ ↦
  ({ parsedImports := if content = "import b" then ["b"] else ["a"],
     items := fun kind ↦ if kind = .rules then [content] else [] }, [])

theorem discovery_exact_cycle :
    (∀ content name name', (parseCyclic content name).1.parsedImports =
      (parseCyclic content name').1.parsedImports) ∧
    (discoverAndMergeFiles cyclicFiles parseCyclic ["/r"] 3 "/r/./a.rfl" {}).map
      (fun context ↦ (context.result.success, context.state.items .rules)) =
        some (true, ["import b", "import a"]) ∧
    ∃ context : FileDiscoveryContext fun _ ↦ String,
      (∀ depth, 2 < depth →
        discoverAndMergeFiles cyclicFiles parseCyclic ["/r"] depth "/r/./a.rfl" {} = some context) ∧
      (context.result.success = true →
        ∃ visits : List Visit, (visits.map (·.canonicalPath)).Nodup ∧
          (∀ c, c ∈ visits.map (·.canonicalPath) ↔
            FileReached cyclicFiles parseCyclic ["/r"] "/r/./a.rfl" c) ∧
          (∀ v ∈ visits, cyclicFiles.canonical v.path = .ok v.canonicalPath) ∧
          ∀ kind, context.state.items kind =
            (visits.map fun v ↦ (localStateOf cyclicFiles parseCyclic v.path).items kind).flatten) :=
  ⟨fun _ _ _ ↦ rfl, by decide +kernel,
    discovery_exact cyclicFiles parseCyclic ["/r"] (fun _ _ _ ↦ rfl) "/r/./a.rfl"⟩

end Discovery

end RulesForge
