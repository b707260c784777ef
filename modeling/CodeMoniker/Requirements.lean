import CodeMoniker.ExtractionContext
import CodeMoniker.QueryValues
import CodeMoniker.SegmentPatterns

/-!
# Requirements of other files

`require` asks whether a symbol exists that matches a pattern. The resolver does not search the
project : it reads the files that the literal `dir:` and `module:` steps of the pattern name, and
answers for them (`requirementLookup_laws`). Without such a `module:` step nothing is read.
-/

namespace CodeMoniker.Requirement

open List ByteCodec Query PathPattern

/-! ## Files -/

/-- The components of a path below the root of the project. -/
abbrev RelativePath := List (List Char)

/-- `Path::join` with a component. -/
def joinComponent (path : RelativePath) (name : List Char) : RelativePath :=
  if name = [] ∨ name = ['.'] then path else path ++ [name]

/-- What the resolver uses of the workspace. -/
structure CheckWorkspace where
  exists_ : RelativePath → Bool
  readToString : RelativePath → Option SourceText

/-- `Path::extension` of a file name. -/
def extension (name : List Char) : Option (List Char) :=
  let after := (name.reverse.takeWhile (· ≠ '.')).reverse
  if name = "..".toList ∨ name.length ≤ after.length + 1 then none else some after

/-- `path_to_lang` on a path that ends in `.rs`, as all paths do here. -/
def pathToLang (path : RelativePath) : Option Lang :=
  match (path.getLast?.bind extension).map (·.map Char.toLower) with
  | some ['r', 's'] => some .rs
  | _ => none

/-! ## The files of a pattern -/

def literalStepName (step : List Char) (kind : String) : Option (List Char) := do
  let (stepKind, name) ← splitOnce ':' step
  if stepKind = kind.toList ∧ name.all (· ∉ ['*', '{', '}', '/']) then some name else none

/-- One turn of the loop over the steps. -/
def requirementStep (literals : List (List Char) × Option (List Char)) (step : List Char) :
    List (List Char) × Option (List Char) :=
  match literalStepName step "dir" with
  | some dir => (literals.1 ++ [dir], literals.2)
  | none =>
    match literalStepName step "module" with
    | some name => (literals.1, some name)
    | none => literals

def sourceCandidatesFromRequirement (pattern : List Char) : Option (List RelativePath) :=
  let (dirs, module) := (pattern.splitOn '/').foldl requirementStep ([], none)
  module.map fun module =>
    let base := dirs.foldl joinComponent []
    if module = "mod".toList then [base ++ ["mod.rs".toList]]
    else [base ++ [module ++ ".rs".toList], joinComponent base module ++ ["mod.rs".toList]]

/-! ## The lookup -/

-- `extract` reads a file under its path below the root.
variable (extract : RelativePath → SourceText → CodeGraph) (regexNew : String → Option Regex)

/-- One of the candidates has a matching definition. -/
def candidateMatches (ws : CheckWorkspace) (pattern : PathPattern) (path : RelativePath) : Bool :=
  ws.exists_ path &&
    match pathToLang path, ws.readToString path with
    | some _, some source => (extract path source).defs.any fun d => pattern.matches d.moniker
    | _, _ => false

/-- `FileRequirementResolver::exists`. -/
def exists_ (ws : CheckWorkspace) (pattern : String) : Bool :=
  match sourceCandidatesFromRequirement pattern.toList, PathPattern.parse regexNew pattern with
  | some candidates, some parsed => candidates.any (candidateMatches extract ws parsed)
  | _, _ => false

/-! ## The steps that name files -/

/-- The names of the literal steps of a kind. -/
def stepNames (kind : String) (pattern : String) : List (List Char) :=
  (pattern.toList.splitOn '/').filterMap fun step => literalStepName step kind

/-- A name that is a component of its own. -/
def PlainName (name : List Char) : Prop := name ≠ [] ∧ name ≠ ['.'] ∧ name ≠ ['.', '.']

instance (name : List Char) : Decidable (PlainName name) :=
  inferInstanceAs (Decidable (_ ∧ _ ∧ _))

/-- The literal steps name components. -/
structure PlainSteps (pattern : String) : Prop where
  dir : ∀ name ∈ stepNames "dir" pattern, PlainName name
  module : ∀ name ∈ stepNames "module" pattern, PlainName name

/-- The files that a literal `module:` step names in the folder of the literal `dir:` steps. -/
def AddressedBy (pattern : String) (path : RelativePath) : Prop :=
  ∃ name ∈ stepNames "module" pattern,
    (name = "mod".toList ∧ path = stepNames "dir" pattern ++ ["mod.rs".toList]) ∨
    (name ≠ "mod".toList ∧ (path = stepNames "dir" pattern ++ [name ++ ".rs".toList] ∨
      path = stepNames "dir" pattern ++ [name, "mod.rs".toList]))

/-- A Rust file of the project, under its path below the root, that can be read. -/
structure ProjectFile (ws : CheckWorkspace) (path : RelativePath) (source : SourceText) : Prop where
  plain : ∀ name ∈ path, PlainName name
  rust : pathToLang path = some .rs
  exists_ : ws.exists_ path = true
  read : ws.readToString path = some source

/-! ## The candidates -/

theorem literalStepName_kind {step name : List Char} {kind : String}
    (h : literalStepName step kind = some name) :
    ∃ rest, splitOnce ':' step = some (kind.toList, rest) := by
  unfold literalStepName at h
  obtain ⟨⟨stepKind, rest⟩, hsplit, h⟩ := Option.bind_eq_some_iff.mp h
  dsimp only at h
  split_ifs at h with hkind
  exact ⟨rest, hkind.1 ▸ hsplit⟩

/-- A step has one kind. -/
theorem literalStepName_module {step name : List Char}
    (h : literalStepName step "dir" = some name) : literalStepName step "module" = none := by
  obtain ⟨rest, hdir⟩ := literalStepName_kind h
  by_contra hmodule
  obtain ⟨name', hname'⟩ := Option.ne_none_iff_exists'.mp hmodule
  obtain ⟨rest', hmodule⟩ := literalStepName_kind hname'
  have hkind := (Prod.mk.inj (Option.some.inj (hdir.symm.trans hmodule))).1
  exact absurd hkind (by decide)

theorem foldl_requirementStep (steps : List (List Char))
    (literals : List (List Char) × Option (List Char)) : steps.foldl requirementStep literals =
      (literals.1 ++ steps.filterMap (literalStepName · "dir"),
        ((steps.filterMap (literalStepName · "module")).getLast?).or literals.2) := by
  induction steps generalizing literals with
  | nil => simp
  | cons step steps ih =>
    rw [foldl_cons, ih, requirementStep]
    cases hdir : literalStepName step "dir" with
    | some name =>
      simp only [filterMap_cons, hdir, literalStepName_module hdir, append_assoc, singleton_append]
    | none =>
      simp only [filterMap_cons, hdir]
      cases hmodule : literalStepName step "module" with
      | none => rfl
      | some name =>
        dsimp only
        rw [getLast?_cons]
        cases (steps.filterMap (literalStepName · "module")).getLast? <;> rfl

theorem foldl_joinComponent {names : List (List Char)} (h : ∀ name ∈ names, PlainName name)
    (path : RelativePath) : names.foldl joinComponent path = path ++ names := by
  induction names generalizing path with
  | nil => simp
  | cons name names ih =>
    rw [forall_mem_cons] at h
    have hjoin : joinComponent path name = path ++ [name] :=
      if_neg fun hname => hname.elim h.1.1 h.1.2.1
    rw [foldl_cons, ih h.2, hjoin, append_assoc, singleton_append]

/-- The files of the last literal `module:` step. -/
def moduleFiles (dirs : RelativePath) (module : List Char) : List RelativePath :=
  if module = "mod".toList then [dirs ++ ["mod.rs".toList]]
  else [dirs ++ [module ++ ".rs".toList], dirs ++ [module, "mod.rs".toList]]

theorem sourceCandidates_eq {pattern : String} (h : PlainSteps pattern) :
    sourceCandidatesFromRequirement pattern.toList =
      (stepNames "module" pattern).getLast?.map (moduleFiles (stepNames "dir" pattern)) := by
  unfold sourceCandidatesFromRequirement
  rw [foldl_requirementStep]
  dsimp only
  rw [nil_append, Option.or_none]
  have hmodules : (pattern.toList.splitOn '/').filterMap (literalStepName · "module") =
      stepNames "module" pattern := rfl
  have hdirs : (pattern.toList.splitOn '/').filterMap (literalStepName · "dir") =
      stepNames "dir" pattern := rfl
  rw [hmodules, hdirs, foldl_joinComponent h.dir, nil_append]
  cases hlast : (stepNames "module" pattern).getLast? with
  | none => rfl
  | some name =>
    have hplain := h.module name (mem_of_getLast? hlast)
    have hjoin : joinComponent (stepNames "dir" pattern) name = stepNames "dir" pattern ++ [name] :=
      if_neg fun hname => hname.elim hplain.1 hplain.2.1
    rw [Option.map_some, Option.map_some, hjoin, moduleFiles, append_assoc, singleton_append]

theorem mem_moduleFiles {pattern : String} {name : List Char}
    (hname : name ∈ stepNames "module" pattern) {path : RelativePath}
    (h : path ∈ moduleFiles (stepNames "dir" pattern) name) : AddressedBy pattern path := by
  unfold moduleFiles at h
  split_ifs at h with hmod
  · exact ⟨name, hname, .inl ⟨hmod, mem_singleton.mp h⟩⟩
  · exact ⟨name, hname, .inr ⟨hmod, mem_pair.mp h⟩⟩

/-! ## The lookup reads the named files -/

theorem extension_rs {stem : List Char} (h : stem ≠ []) :
    extension (stem ++ ".rs".toList) = some "rs".toList := by
  have hafter : ((stem ++ ".rs".toList).reverse.takeWhile (· ≠ '.')).reverse = "rs".toList := by
    rw [reverse_append]
    rfl
  have hlength : ¬(stem ++ ".rs".toList).length ≤ "rs".toList.length + 1 := by
    have hpos := length_pos_iff.mpr h
    have hdots : ".rs".toList.length = 3 := rfl
    have hrs : "rs".toList.length = 2 := rfl
    rw [length_append, hdots, hrs]
    omega
  have hdots : stem ++ ".rs".toList ≠ "..".toList := by
    intro heq
    have hlast := congrArg List.getLast? heq
    rw [getLast?_append] at hlast
    have hs : (some 's' : Option Char) = some '.' := hlast
    exact absurd hs (by decide)
  rw [extension, hafter, if_neg (not_or.mpr ⟨hdots, hlength⟩)]

theorem pathToLang_rs (dirs : RelativePath) {stem : List Char} (h : stem ≠ []) :
    pathToLang (dirs ++ [stem ++ ".rs".toList]) = some .rs := by
  rw [pathToLang, getLast?_concat, Option.bind_some, extension_rs h]
  rfl

theorem plainName_rs (stem : List Char) : PlainName (stem ++ ".rs".toList) := by
  have hlast : ∀ name : List Char, name.getLast? ≠ some 's' → stem ++ ".rs".toList ≠ name := by
    rintro name hname rfl
    rw [getLast?_append] at hname
    exact hname rfl
  exact ⟨hlast _ (by decide), hlast _ (by decide), hlast _ (by decide)⟩

/-- A named path is one of a Rust file below the root. -/
theorem AddressedBy.rust {pattern : String} {path : RelativePath} (hplain : PlainSteps pattern)
    (h : AddressedBy pattern path) :
    (∀ name ∈ path, PlainName name) ∧ pathToLang path = some .rs := by
  have hmod : "mod.rs".toList = "mod".toList ++ ".rs".toList := rfl
  have hend : ∀ {dirs : RelativePath} {stem : List Char}, stem ≠ [] →
      (∀ name ∈ dirs, PlainName name) →
        (∀ name ∈ dirs ++ [stem ++ ".rs".toList], PlainName name) ∧
          pathToLang (dirs ++ [stem ++ ".rs".toList]) = some .rs := by
    intro dirs stem hstem hdirs
    refine ⟨forall_mem_append.mpr ⟨hdirs, ?_⟩, pathToLang_rs dirs hstem⟩
    exact forall_mem_singleton.mpr (plainName_rs stem)
  obtain ⟨name, hname, ⟨-, rfl⟩ | ⟨-, rfl | rfl⟩⟩ := h
  · rw [hmod]
    exact hend (by decide) hplain.dir
  · exact hend (hplain.module name hname).1 hplain.dir
  · have hdirs : stepNames "dir" pattern ++ [name, "mod.rs".toList] =
        (stepNames "dir" pattern ++ [name]) ++ ["mod".toList ++ ".rs".toList] := by
      rw [append_assoc]
      rfl
    rw [hdirs]
    exact hend (by decide) (forall_mem_append.mpr
      ⟨hplain.dir, forall_mem_singleton.mpr (hplain.module name hname)⟩)

variable {extract regexNew} {ws : CheckWorkspace} {pattern : String} {parsed : PathPattern}

theorem candidateMatches_iff {path : RelativePath} (hplain : PlainSteps pattern)
    (haddressed : AddressedBy pattern path) : candidateMatches extract ws parsed path = true ↔
      ∃ source, ProjectFile ws path source ∧
        ∃ d ∈ (extract path source).defs, parsed.matches d.moniker = true := by
  obtain ⟨hnames, hrust⟩ := haddressed.rust hplain
  unfold candidateMatches
  rw [Bool.and_eq_true, hrust]
  constructor
  · rintro ⟨hexists, hmatch⟩
    cases hread : ws.readToString path with
    | none => simp [hread] at hmatch
    | some source =>
      rw [hread] at hmatch
      obtain ⟨d, hd, hmatches⟩ := any_eq_true.mp hmatch
      exact ⟨source, ⟨hnames, hrust, hexists, hread⟩, d, hd, hmatches⟩
  · rintro ⟨source, hfile, d, hd, hmatches⟩
    refine ⟨hfile.exists_, ?_⟩
    rw [hfile.read]
    exact any_eq_true.mpr ⟨d, hd, hmatches⟩

/-- The search of the project. -/
def SymbolExists (extract : RelativePath → SourceText → CodeGraph) (ws : CheckWorkspace)
    (parsed : PathPattern) (paths : RelativePath → Prop) : Prop :=
  ∃ path source, paths path ∧ ProjectFile ws path source ∧
    ∃ d ∈ (extract path source).defs, parsed.matches d.moniker = true

/-- What is found is there. -/
theorem symbolExists_of_exists (hparse : parse regexNew pattern = some parsed)
    (hplain : PlainSteps pattern) (h : exists_ extract regexNew ws pattern = true) :
    SymbolExists extract ws parsed (AddressedBy pattern) := by
  rw [exists_, hparse, sourceCandidates_eq hplain] at h
  cases hlast : (stepNames "module" pattern).getLast? with
  | none => simp [hlast] at h
  | some name =>
    rw [hlast, Option.map_some] at h
    obtain ⟨path, hpath, hmatch⟩ := any_eq_true.mp h
    have haddressed := mem_moduleFiles (mem_of_getLast? hlast) hpath
    obtain ⟨source, hfile, hdef⟩ := (candidateMatches_iff hplain haddressed).mp hmatch
    exact ⟨path, source, haddressed, hfile, hdef⟩

theorem exists_iff (hparse : parse regexNew pattern = some parsed)
    (hplain : PlainSteps pattern) (hone : (stepNames "module" pattern).length ≤ 1) :
    exists_ extract regexNew ws pattern = true ↔
      SymbolExists extract ws parsed (AddressedBy pattern) := by
  refine ⟨symbolExists_of_exists hparse hplain, ?_⟩
  rintro ⟨path, source, haddressed, hfile, hdef⟩
  obtain ⟨name, hname, hpath⟩ := id haddressed
  have hmodule : (stepNames "module" pattern).getLast? = some name := by
    obtain ⟨last, hlast⟩ := length_eq_one_iff.mp
      (Nat.le_antisymm hone (length_pos_of_mem hname))
    rw [hlast] at hname ⊢
    rw [mem_singleton.mp hname]
    rfl
  rw [exists_, hparse, sourceCandidates_eq hplain, hmodule, Option.map_some]
  refine any_eq_true.mpr ⟨path, ?_, (candidateMatches_iff hplain haddressed).mpr
    ⟨source, hfile, hdef⟩⟩
  unfold moduleFiles
  rcases hpath with ⟨hmod, hpath⟩ | ⟨hmod, hpath⟩
  · rw [if_pos hmod]
    exact mem_singleton.mpr hpath
  · rw [if_neg hmod]
    exact mem_pair.mpr hpath

/-! ## A symbol under its own address -/

/-- A spelled step is a literal step of its kind. -/
theorem literalStepName_stepText {s : Segment} {spelling : List Char × List Char}
    (h : PathPattern.SpelledBy s spelling.1 spelling.2) {kind : String}
    (hname : spelling.1 = kind.toList → ∀ c ∈ spelling.2, c ∉ ['*', '{', '}']) :
    literalStepName (stepText spelling) kind =
      if spelling.1 = kind.toList then some spelling.2 else none := by
  have hsplit : splitOnce ':' (stepText spelling) = some spelling :=
    splitOnce_append h.kindText.2.2.1
  unfold literalStepName
  rw [hsplit]
  change (if spelling.1 = kind.toList ∧ spelling.2.all (· ∉ ['*', '{', '}', '/']) then
    some spelling.2 else none) = _
  by_cases hkind : spelling.1 = kind.toList
  · have hchars : spelling.2.all (· ∉ ['*', '{', '}', '/']) = true := by
      rw [all_eq_true]
      intro c hc
      rw [decide_eq_true_eq]
      intro hmem
      rcases mem_append.mp (show c ∈ ['*', '{', '}'] ++ ['/'] from hmem) with hmem | hmem
      · exact hname hkind c hc hmem
      · exact h.nameText.2.2 (mem_singleton.mp hmem ▸ hc)
    rw [if_pos ⟨hkind, hchars⟩, if_pos hkind]
  · rw [if_neg fun h => hkind h.1, if_neg hkind]

/-- The names of the spelled steps of a kind. -/
def spelledNames (kind : String) (spellings : List (List Char × List Char)) : List (List Char) :=
  (spellings.filter fun t => t.1 = kind.toList).map Prod.snd

theorem splitOn_subtreeText {spellings : List (List Char × List Char)}
    (h : ∀ t ∈ spellings, '/' ∉ stepText t) : (subtreeText spellings).toList.splitOn '/' =
      spellings.map stepText ++ ["**".toList] := by
  rw [subtreeText, String.toList_ofList]
  induction spellings with
  | nil => exact splitOn_eq_singleton (by decide)
  | cons t spellings ih =>
    rw [forall_mem_cons] at h
    rw [map_cons, flatMap_cons, append_assoc, append_assoc,
      singleton_append, splitOn_append_cons_self_of_not_mem h.1, ih h.2,
      cons_append]

theorem stepNames_subtreeText {segs : List Segment} {spellings : List (List Char × List Char)}
    (h : Forall₂ (fun s t => PathPattern.SpelledBy s t.1 t.2) segs spellings) {kind : String}
    (hnames : ∀ t ∈ spellings, t.1 = kind.toList → ∀ c ∈ t.2, c ∉ ['*', '{', '}']) :
    stepNames kind (subtreeText spellings) = spelledNames kind spellings := by
  have hslash : ∀ t ∈ spellings, '/' ∉ stepText t := fun t ht =>
    (plainText_of_spelled h _ (mem_map_of_mem ht)).noSlash
  have hstars : literalStepName "**".toList kind = none := rfl
  rw [stepNames, splitOn_subtreeText hslash, filterMap_append]
  simp only [filterMap_cons, hstars, filterMap_nil, append_nil]
  clear hslash
  induction h with
  | nil => rfl
  | cons hs _ ih =>
    rw [forall_mem_cons] at hnames
    rw [spelledNames, map_cons, filterMap_cons,
      literalStepName_stepText hs hnames.1, ih hnames.2, filter_cons]
    simp only [decide_eq_true_eq]
    split_ifs <;> rfl

/-- A symbol is found under its own address if the names in it are the path of its file. -/
theorem exists_ownAddress {path : RelativePath} {source : SourceText}
    (hfile : ProjectFile ws path source) {d : DefRecord} (hd : d ∈ (extract path source).defs)
    {spellings : List (List Char × List Char)}
    (hspelled : Forall₂ (fun s t => PathPattern.SpelledBy s t.1 t.2) d.moniker.segments spellings)
    (hnames : ∀ t ∈ spellings, t.1 = "dir".toList ∨ t.1 = "module".toList →
      PlainName t.2 ∧ ∀ c ∈ t.2, c ∉ ['*', '{', '}'])
    {module : List Char} (hmodule : spelledNames "module" spellings = [module])
    (hpath : path ∈ moduleFiles (spelledNames "dir" spellings) module) :
    exists_ extract regexNew ws (subtreeText spellings) = true := by
  have hdirs := stepNames_subtreeText hspelled fun t ht hkind => (hnames t ht (.inl hkind)).2
  have hmodules := stepNames_subtreeText hspelled fun t ht hkind => (hnames t ht (.inr hkind)).2
  have hplain : ∀ kind : String, kind = "dir" ∨ kind = "module" →
      ∀ name ∈ spelledNames kind spellings, PlainName name := by
    intro kind hkind name hname
    obtain ⟨t, ht, rfl⟩ := mem_map.mp hname
    obtain ⟨hmem, heq⟩ := mem_filter.mp ht
    have heq := of_decide_eq_true heq
    rcases hkind with rfl | rfl
    · exact (hnames t hmem (.inl heq)).1
    · exact (hnames t hmem (.inr heq)).1
  have hsteps : PlainSteps (subtreeText spellings) :=
    ⟨hdirs ▸ hplain "dir" (.inl rfl), hmodules ▸ hplain "module" (.inr rfl)⟩
  have hone : (stepNames "module" (subtreeText spellings)).length ≤ 1 := by
    rw [hmodules, hmodule]
    exact le_rfl
  have haddressed : AddressedBy (subtreeText spellings) path := by
    refine mem_moduleFiles ?_ (hdirs ▸ hpath)
    rw [hmodules, hmodule]
    exact mem_singleton_self module
  refine (exists_iff (parse_subtree hspelled regexNew) hsteps hone).mpr
    ⟨path, source, haddressed, hfile, d, hd, ?_⟩
  rw [matches_subtree_iff rfl]
  exact isAncestorOf_refl d.moniker

/-- The lookup is the search of the files that the pattern names : it finds what is in them and
nothing else, so what it finds exists, and every symbol whose address spells its file is found. -/
theorem requirementLookup_laws (extract : RelativePath → SourceText → CodeGraph)
    (regexNew : String → Option Regex) (ws : CheckWorkspace) :
    (∀ pattern parsed, PathPattern.parse regexNew pattern = some parsed → PlainSteps pattern →
      ((stepNames "module" pattern).length ≤ 1 → (exists_ extract regexNew ws pattern = true ↔
          SymbolExists extract ws parsed (AddressedBy pattern))) ∧
      (exists_ extract regexNew ws pattern = true → SymbolExists extract ws parsed fun _ => True)) ∧
    ∀ path source, ProjectFile ws path source → ∀ d ∈ (extract path source).defs, ∀ spellings,
      List.Forall₂ (fun s t => PathPattern.SpelledBy s t.1 t.2) d.moniker.segments spellings →
      (∀ t ∈ spellings, t.1 = "dir".toList ∨ t.1 = "module".toList →
        PlainName t.2 ∧ ∀ c ∈ t.2, c ∉ ['*', '{', '}']) →
      ∀ module, spelledNames "module" spellings = [module] →
        path ∈ moduleFiles (spelledNames "dir" spellings) module →
          exists_ extract regexNew ws (PathPattern.subtreeText spellings) = true := by
  refine ⟨fun pattern parsed hparse hplain => ⟨exists_iff hparse hplain, fun h => ?_⟩, ?_⟩
  · obtain ⟨path, source, -, hfile, hdef⟩ := symbolExists_of_exists hparse hplain h
    exact ⟨path, source, trivial, hfile, hdef⟩
  · intro path source hfile d hd spellings hspelled hnames module hmodule hpath
    exact exists_ownAddress hfile hd hspelled hnames hmodule hpath

/-! ## A crate with one struct -/

def libPath : RelativePath := ["src".toList, "lib.rs".toList]

def libSource : SourceText := ⟨byteString "struct Foo;", by decide⟩

theorem admitted_lib :
    ∀ s ∈ [("lang", "rs"), ("dir", "src"), ("module", "lib")].map segmentOf, s.Admitted := by
  decide

def libModule : Moniker :=
  dotMoniker [("lang", "rs"), ("dir", "src"), ("module", "lib")] admitted_lib

def fooStruct : DefRecord :=
  CodeGraph.addedDef
    (dotMoniker [("lang", "rs"), ("dir", "src"), ("module", "lib"), ("struct", "Foo")] (by decide))
    (byteString "struct") 0 (some (0, 11)) {}

def libWorkspace : CheckWorkspace where
  exists_ path := decide (path = libPath)
  readToString path := if path = libPath then some libSource else none

/-- The extraction of the file. -/
def libExtract (_ : RelativePath) (_ : SourceText) : CodeGraph :=
  .fromRecords ((CodeGraph.withRoot libModule (byteString "module")).defs ++ [fooStruct]) []

theorem segments_fooStruct : fooStruct.moniker.segments =
    [("lang", "rs"), ("dir", "src"), ("module", "lib"), ("struct", "Foo")].map segmentOf := by
  unfold fooStruct dotMoniker
  rw [CodeGraph.addedDef, Moniker.segments_ofParts]

theorem projectFile_lib : ProjectFile libWorkspace libPath libSource where
  plain := by decide
  rust := by decide
  exists_ := by decide
  read := by decide

def structStep : PatternStep := .literal (byteString "struct") (byteString "Foo")

theorem toList_fooPattern : "**/dir:src/module:lib/struct:Foo".toList =
    ['*', '*', '/', 'd', 'i', 'r', ':', 's', 'r', 'c', '/', 'm', 'o', 'd', 'u', 'l', 'e', ':', 'l',
      'i', 'b', '/', 's', 't', 'r', 'u', 'c', 't', ':', 'F', 'o', 'o'] := by
  simp

set_option maxRecDepth 2000 in
/-- The struct is found where its module is named. -/
theorem exists_fooStruct :
    exists_ libExtract (fun _ => none) libWorkspace "**/dir:src/module:lib/struct:Foo" = true := by
  have hdirs : stepNames "dir" "**/dir:src/module:lib/struct:Foo" = ["src".toList] := by
    rw [stepNames, toList_fooPattern]
    rfl
  have hmodules : stepNames "module" "**/dir:src/module:lib/struct:Foo" = ["lib".toList] := by
    rw [stepNames, toList_fooPattern]
    rfl
  have hplain : PlainSteps "**/dir:src/module:lib/struct:Foo" := by
    refine ⟨?_, ?_⟩
    · rw [hdirs]
      decide
    · rw [hmodules]
      decide
  have haddressed : AddressedBy "**/dir:src/module:lib/struct:Foo" libPath := by
    refine ⟨"lib".toList, ?_, .inr ⟨by decide, .inl ?_⟩⟩
    · rw [hmodules]
      exact mem_singleton_self _
    · rw [hdirs]
      rfl
  have hone : (stepNames "module" "**/dir:src/module:lib/struct:Foo").length ≤ 1 := by
    rw [hmodules]
    decide
  refine (((requirementLookup_laws libExtract (fun _ => none) libWorkspace).1
    "**/dir:src/module:lib/struct:Foo" ⟨[.doubleStar, .literal (byteString "dir") (byteString "src"),
      .literal (byteString "module") (byteString "lib"), structStep], _⟩ rfl hplain).1 hone).mpr
        ⟨libPath, libSource, haddressed, projectFile_lib, fooStruct, ?_, ?_⟩
  · exact mem_append_right _ (mem_singleton_self _)
  · rw [PathPattern.matches, segments_fooStruct]
    decide

/-- No file is read for a pattern without a `module:` step, whatever the project has. -/
theorem exists_withoutModule : PathPattern.parse (fun _ => none) "**/struct:Foo" =
        some ⟨[.doubleStar, structStep], "**/struct:Foo"⟩ ∧
      SymbolExists libExtract libWorkspace ⟨[.doubleStar, structStep], "**/struct:Foo"⟩
        (fun _ => True) ∧
      exists_ libExtract (fun _ => none) libWorkspace "**/struct:Foo" = false := by
  refine ⟨rfl, ⟨libPath, libSource, trivial, projectFile_lib, fooStruct, ?_, ?_⟩, by decide⟩
  · exact mem_append_right _ (mem_singleton_self _)
  · rw [PathPattern.matches, segments_fooStruct]
    decide

end CodeMoniker.Requirement
