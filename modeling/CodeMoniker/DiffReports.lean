import CodeMoniker.LineSpans
import CodeMoniker.PairingLossless
import CodeMoniker.ReferenceChanges

/-!
# Two reports on the files of a diff

The review of a git diff (`reviewFacts`) and the impact of a diff of documents
(`impactFacts`) pair symbols and references in the same way, and each computes for
itself which lines of the hunks these explain : `pairFacts` takes the ranges of all references of
a file, `fileFacts` those whose path is the path of the side it looks at.

A retargeted reference has the path of the current side. In a renamed file its old range is
explained in the first report only, and `fileFacts_eq_iff` says when this makes a difference.
-/

namespace CodeMoniker

open List ByteCodec LineSpans Traversals

/-! ## Rollups -/

inductive FileDisposition where
  | added
  | removed
  | moved (isPure : Bool)
  | modified
  deriving DecidableEq, Repr

structure FileRollup where
  oldPath : Option MemoryPath
  newPath : Option MemoryPath
  disposition : FileDisposition
  symbolChanges : ℕ
  movedSymbols : ℕ
  deriving DecidableEq

def isPureMove (change : SymbolChange) : Bool :=
  change.kind = .moved && change.facets = { fileMoved := change.facets.fileMoved }

def movedFileRollup (oldPath newPath : MemoryPath) (changes : List SymbolChange) : FileRollup :=
  let movedSymbols := changes.countP fun change => change.kind = .moved
  let symbolChanges := changes.countP fun change => !isPureMove change
  { oldPath := some oldPath
    newPath := some newPath
    disposition := .moved (symbolChanges = 0)
    symbolChanges
    movedSymbols }

/-! ## Coverage -/

structure HunkCoverage where
  oldResidual : List (ℕ × ℕ)
  newResidual : List (ℕ × ℕ)
  deriving DecidableEq

def HunkCoverage.explained (c : HunkCoverage) : Bool := c.oldResidual = [] && c.newResidual = []

/-- A line number stays below 2^32 - 1, so adding one to it does not saturate. -/
def hunkCoverage (oldHunks newHunks oldExplained newExplained : List (ℕ × ℕ)) : HunkCoverage where
  oldResidual := residualSpans oldHunks oldExplained
  newResidual := residualSpans newHunks newExplained

structure FileFacts where
  rollup : FileRollup
  coverage : HunkCoverage
  analyzable : Bool
  deriving DecidableEq

/-- The last step of both reports. -/
def factsOf (rollup : FileRollup) (coverage : HunkCoverage) : FileFacts where
  rollup :=
    if rollup.disposition = .moved true ∧ coverage.explained = false then
      { rollup with disposition := .moved false }
    else rollup
  coverage
  analyzable := true

/-- The changes of a file. -/
def fileChanges (oldPath newPath : MemoryPath) (changes : List SymbolChange) : List SymbolChange :=
  changes.filter fun change =>
    change.old.any (·.filePath = oldPath) || change.new.any (·.filePath = newPath)

/-- The range of a side, if it is in the file at the path. -/
def rangeAt (path : MemoryPath) (side : Option SymbolSide) : Option (ℕ × ℕ) :=
  (side.filter (·.filePath = path)).bind (·.lineRange)

/-! ## The review of a git diff -/

structure SidePair where
  base : FileSide
  current : FileSide
  oldHunks : List (ℕ × ℕ)
  newHunks : List (ℕ × ℕ)
  fileMoved : Bool
  disposition : FileDisposition

namespace SidePair

variable (pair : SidePair)

def plainRollup (disposition : FileDisposition) (fileChanges : List SymbolChange) :
    FileRollup where
  oldPath := if disposition ≠ .added then some pair.base.filePath else none
  newPath := if disposition ≠ .removed then some pair.current.filePath else none
  disposition
  symbolChanges := fileChanges.length
  movedSymbols := 0

def pairCoverage (fileChanges : List SymbolChange) (refs : List RefChange) : HunkCoverage :=
  hunkCoverage pair.oldHunks pair.newHunks
    (fileChanges.filterMap (fun change => rangeAt pair.base.filePath change.old) ++
      refs.filterMap (·.oldLineRange))
    (fileChanges.filterMap (fun change => rangeAt pair.current.filePath change.new) ++
      refs.filterMap (·.newLineRange))

def pairFacts (changes : List SymbolChange) (refs : List RefChange) : FileFacts :=
  let fileChanges := fileChanges pair.base.filePath pair.current.filePath changes
  let rollup :=
    match pair.disposition with
    | .moved _ => movedFileRollup pair.base.filePath pair.current.filePath fileChanges
    | disposition => pair.plainRollup disposition fileChanges
  factsOf rollup (pair.pairCoverage fileChanges refs)

end SidePair

/-! ## The impact of a diff of documents -/

inductive DiffFileStatus where
  | added
  | modified
  | deleted
  | renamed
  deriving DecidableEq, Repr

structure DiffImpactPair where
  old : FileSide
  new : FileSide
  status : DiffFileStatus
  oldHunks : List (ℕ × ℕ)
  newHunks : List (ℕ × ℕ)

namespace DiffImpactPair

variable (pair : DiffImpactPair)

def moved : Bool := pair.status = .renamed || pair.old.filePath ≠ pair.new.filePath

/-- The ranges of one side of the changes, and of the references at the path. -/
def explainedRanges (side : SymbolChange → Option SymbolSide)
    (lines : RefChange → Option (ℕ × ℕ)) (path : MemoryPath) (changes : List SymbolChange)
    (refs : List RefChange) : List (ℕ × ℕ) :=
  changes.filterMap (fun change => rangeAt path (side change)) ++
    (refs.filter fun r => r.filePath = path).filterMap lines

def coverage (changes : List SymbolChange) (refs : List RefChange) : HunkCoverage :=
  hunkCoverage pair.oldHunks pair.newHunks
    (explainedRanges (·.old) (·.oldLineRange) pair.old.filePath changes refs)
    (explainedRanges (·.new) (·.newLineRange) pair.new.filePath changes refs)

def dispositionOf : DiffFileStatus → FileDisposition
  | .added => .added
  | .deleted => .removed
  | .modified => .modified
  | .renamed => .moved true

def fileFacts (changes : List SymbolChange) (refs : List RefChange) : FileFacts :=
  let fileChanges := fileChanges pair.old.filePath pair.new.filePath changes
  let rollup : FileRollup :=
    if pair.moved then movedFileRollup pair.old.filePath pair.new.filePath fileChanges
    else
      { oldPath := if pair.status ≠ .added then some pair.old.filePath else none
        newPath := if pair.status ≠ .deleted then some pair.new.filePath else none
        disposition := dispositionOf pair.status
        symbolChanges := fileChanges.length
        movedSymbols := 0 }
  factsOf rollup (pair.coverage fileChanges refs)

end DiffImpactPair

/-! ## Reports -/

variable (changes : List SymbolChange)

def renameContext (moved : List (FileSide × FileSide)) :
    RenameContext :=
  moved.foldl (fun ctx sides => ctx.pushRoots sides.1.graph sides.2.graph)
    (RenameContext.fromChanges changes)

def reviewInputs (pair : SidePair) : PairInputs := ⟨pair.base, pair.current, pair.fileMoved⟩

def impactInputs (pair : DiffImpactPair) : PairInputs := ⟨pair.old, pair.new, pair.moved⟩

/-- The renames of a review. -/
def reviewContext (pairs : List SidePair) : RenameContext :=
  renameContext changes ((pairs.filter (·.fileMoved)).map fun pair => (pair.base, pair.current))

def impactContext (pairs : List DiffImpactPair) : RenameContext :=
  renameContext changes ((pairs.filter (·.moved)).map fun pair => (pair.old, pair.new))

/-- The references and the facts of each file. -/
def reviewFacts (pairs : List SidePair) :
    Option (List (List RefChange × FileFacts)) :=
  pairs.mapM fun pair =>
    (pairRefs pair.base pair.current (reviewContext changes pairs)).map fun refs =>
      (refs, pair.pairFacts changes refs)

def impactFacts (pairs : List DiffImpactPair) :
    Option (List (List RefChange × FileFacts)) :=
  pairs.mapM fun pair =>
    (pairRefs pair.old pair.new (impactContext changes pairs)).map fun refs =>
      (refs, pair.fileFacts changes refs)

/-- `facts_order`. -/
def factsOrder (facts : FileFacts) : WithBot MemoryPath ×ₗ WithBot MemoryPath :=
  toLex (facts.rollup.newPath.or facts.rollup.oldPath, facts.rollup.oldPath)

/-! ## One input for both -/

/-- A file of a diff. Only a renamed file has two paths. -/
structure DiffFile where
  base : FileSide
  current : FileSide
  status : DiffFileStatus
  oldHunks : List (ℕ × ℕ)
  newHunks : List (ℕ × ℕ)
  samePath : status ≠ .renamed → base.filePath = current.filePath

variable (file : DiffFile)

/-- `matched_pair` and `deleted_pair`. -/
def DiffFile.sidePair : SidePair where
  base := file.base
  current := file.current
  oldHunks := file.oldHunks
  newHunks := file.newHunks
  fileMoved := file.status = .renamed
  disposition :=
    match file.status with
    | .added => .added
    | .renamed => .moved true
    | .modified => .modified
    | .deleted => .removed

/-- `pair_documents`. -/
def DiffFile.impactPair : DiffImpactPair where
  old := file.base
  new := file.current
  status := file.status
  oldHunks := file.oldHunks
  newHunks := file.newHunks

/-! ## When the facts agree -/

/-- The old ranges that both reports take to be explained. -/
def DiffFile.sharedRanges (changes : List SymbolChange)
    (refs : List RefChange) : List (ℕ × ℕ) :=
  (fileChanges file.base.filePath file.current.filePath changes).filterMap
      (fun change => rangeAt file.base.filePath change.old) ++
    (refs.filter (·.kind = .removed)).filterMap (·.oldLineRange)

/-- The file keeps its path, or the lines of its old hunks that only a retargeted reference could
explain are none. -/
def DiffFile.RetargetsExplained (changes : List SymbolChange)
    (refs : List RefChange) : Prop :=
  file.base.filePath = file.current.filePath ∨
    ∀ hunk ∈ file.oldHunks, ∀ n, hunk.1 ≤ n → n ≤ hunk.2 →
      Spanned ((refs.filter (·.kind.isRetarget)).filterMap (·.oldLineRange)) n →
        Spanned (file.sharedRanges changes refs) n

theorem spanned_filterMap {α : Type} {f : α → Option (ℕ × ℕ)} {l : List α} {n : ℕ} :
    Spanned (l.filterMap f) n ↔ ∃ a ∈ l, ∃ r ∈ f a, r.1 ≤ n ∧ n ≤ r.2 := by
  constructor
  · rintro ⟨r, hr, hn⟩
    obtain ⟨a, ha, hfa⟩ := mem_filterMap.mp hr
    exact ⟨a, ha, r, hfa, hn⟩
  · rintro ⟨a, ha, r, hfa, hn⟩
    exact ⟨r, mem_filterMap.mpr ⟨a, ha, hfa⟩, hn⟩

section Refs

variable {old new : MemoryPath} {refs : List RefChange} (hrefs : ∀ r ∈ refs, r.Placed old new)

include hrefs

/-- The path of a reference says on which side it was removed. -/
theorem filter_filePath_old (hne : old ≠ new) :
    refs.filter (fun r => r.filePath = old) = refs.filter (·.kind = .removed) := by
  refine filter_congr fun r hr => ?_
  rw [(hrefs r hr).path, decide_eq_decide]
  split_ifs with h
  · simp [h]
  · exact ⟨fun heq => absurd heq.symm hne, fun heq => absurd heq h⟩

/-- A reference at another path than the current one has no current lines. -/
theorem filterMap_filePath_new :
    (refs.filter fun r => r.filePath = new).filterMap (·.newLineRange) =
      refs.filterMap (·.newLineRange) := by
  rw [filterMap_filter]
  refine filterMap_congr fun r hr => ?_
  have hplaced := hrefs r hr
  by_cases hpath : r.filePath = new
  · simp [hpath]
  · have hremoved : r.kind = .removed := by
      by_contra hkind
      exact hpath (hplaced.path.trans (if_neg hkind))
    simp [hpath, hplaced.removed hremoved]

/-- Old lines are those of retargeted and of removed references. -/
theorem spanned_oldLineRange {n : ℕ} : Spanned (refs.filterMap (·.oldLineRange)) n ↔
      Spanned ((refs.filter (·.kind.isRetarget)).filterMap (·.oldLineRange)) n ∨
        Spanned ((refs.filter (·.kind = .removed)).filterMap (·.oldLineRange)) n := by
  simp only [spanned_filterMap, mem_filter, decide_eq_true_eq]
  constructor
  · rintro ⟨r, hr, range, hrange, hn⟩
    rcases hkind : r.kind with _ | _ | _ | _
    · exact .inl ⟨r, ⟨hr, by rw [hkind]; rfl⟩, range, hrange, hn⟩
    · exact .inl ⟨r, ⟨hr, by rw [hkind]; rfl⟩, range, hrange, hn⟩
    · rw [(hrefs r hr).added hkind] at hrange
      exact nomatch hrange
    · exact .inr ⟨r, ⟨hr, hkind⟩, range, hrange, hn⟩
  · rintro (⟨r, ⟨hr, -⟩, hrange⟩ | ⟨r, ⟨hr, -⟩, hrange⟩)
    · exact ⟨r, hr, hrange⟩
    · exact ⟨r, hr, hrange⟩

end Refs

/-- The sides of a change have ordered lines. -/
def SymbolChange.Ordered (change : SymbolChange) : Prop :=
  ∀ x : DiffSide, ∀ side ∈ x.ofChange change, OrderedRange side.lineRange

theorem ordered_sides {env : PairingEnv} {file : FileSide} :
    ∀ side ∈ file.sides env, OrderedRange side.lineRange := by
  intro side hside
  obtain ⟨d, hd, rfl⟩ := mem_map.mp hside
  rw [collectSideDefs, Slots.defs_map_some] at hd
  obtain ⟨record, -, hrecord⟩ := mem_filterMap.mp hd
  obtain ⟨root, -, hrecord⟩ := Option.bind_eq_some_iff.mp hrecord
  obtain ⟨tail, -, hrecord⟩ := Option.bind_eq_some_iff.mp hrecord
  obtain ⟨last, -, hrecord⟩ := Option.bind_eq_some_iff.mp hrecord
  obtain rfl := Option.some.inj hrecord
  exact orderedRange_lineRange _ _

theorem ordered_semanticChanges (env : PairingEnv) (order : RunOrder) (files : List PairInputs) :
    ∀ change ∈ semanticChanges env order files, change.Ordered := by
  intro change hchange x side hside
  have hmem := (places_semanticChanges order files x).mem_iff.mpr
    (mem_append_left _ (mem_filterMap.mpr ⟨change, hchange, hside⟩))
  obtain ⟨inputs, -, hin⟩ := mem_flatMap.mp hmem
  exact ordered_sides side hin

theorem ordered_rangeAt {path : MemoryPath} {side : Option SymbolSide}
    (h : ∀ s ∈ side, OrderedRange s.lineRange) : OrderedRange (rangeAt path side) := by
  intro r hr
  obtain ⟨s, hs, hrange⟩ := Option.bind_eq_some_iff.mp hr
  exact h s (Option.filter_eq_some_iff.mp hs).1 r hrange

theorem factsOf_inj {rollup : FileRollup} {c c' : HunkCoverage} :
    factsOf rollup c = factsOf rollup c' ↔ c = c' :=
  ⟨congrArg FileFacts.coverage, congrArg (factsOf rollup)⟩

open DiffImpactPair

/-- The rollups of both reports before the last step. -/
theorem DiffFile.facts_eq (file : DiffFile) (changes : List SymbolChange)
    (refs : List RefChange) : ∃ rollup,
    file.sidePair.pairFacts changes refs = factsOf rollup (file.sidePair.pairCoverage
      (fileChanges file.base.filePath file.current.filePath changes) refs) ∧
    file.impactPair.fileFacts changes refs = factsOf rollup (file.impactPair.coverage
      (fileChanges file.base.filePath file.current.filePath changes) refs) := by
  by_cases hstatus : file.status = .renamed
  · refine ⟨movedFileRollup file.base.filePath file.current.filePath
      (fileChanges file.base.filePath file.current.filePath changes), ?_, ?_⟩
    · simp [SidePair.pairFacts, sidePair, hstatus]
    · simp [fileFacts, moved, impactPair, hstatus]
  · have hmoved : file.impactPair.moved = false := by
      simp [moved, impactPair, hstatus, file.samePath hstatus]
    refine ⟨_, rfl, ?_⟩
    simp only [fileFacts, hmoved]
    rcases hs : file.status with _ | _ | _ | _
    · simp [sidePair, impactPair, hs, SidePair.plainRollup, dispositionOf]
    · simp [sidePair, impactPair, hs, SidePair.plainRollup, dispositionOf]
    · simp [sidePair, impactPair, hs, SidePair.plainRollup, dispositionOf]
    · exact absurd hs hstatus

/-- The facts of a file agree, if and only if its retargeted references are explained without
their old ranges. -/
theorem DiffFile.fileFacts_eq_iff (file : DiffFile) {changes : List SymbolChange}
    {refs : List RefChange} (hchanges : ∀ change ∈ changes, change.Ordered)
    (hrefs : ∀ r ∈ refs, r.Placed file.base.filePath file.current.filePath) :
    file.impactPair.fileFacts changes refs = file.sidePair.pairFacts changes refs ↔
      file.RetargetsExplained changes refs := by
  obtain ⟨rollup, hreview, himpact⟩ := file.facts_eq changes refs
  rw [hreview, himpact, factsOf_inj]
  set own := fileChanges file.base.filePath file.current.filePath changes with hown
  have hnew : explainedRanges (·.new) (·.newLineRange) file.current.filePath own
        refs = own.filterMap (fun change => rangeAt file.current.filePath change.new) ++
      refs.filterMap (·.newLineRange) :=
    congrArg (_ ++ ·) (filterMap_filePath_new hrefs)
  have hcoverage : file.impactPair.coverage own refs = file.sidePair.pairCoverage own refs ↔
      residualSpans file.oldHunks (explainedRanges (·.old) (·.oldLineRange)
          file.base.filePath own refs) =
        residualSpans file.oldHunks (own.filterMap (fun change =>
          rangeAt file.base.filePath change.old) ++ refs.filterMap (·.oldLineRange)) := by
    simp only [coverage, SidePair.pairCoverage, hunkCoverage, impactPair, sidePair,
      HunkCoverage.mk.injEq, hnew, and_true]
  rw [hcoverage]
  by_cases hpath : file.base.filePath = file.current.filePath
  · have hall : refs.filter (fun r => r.filePath = file.base.filePath) = refs := by
      refine filter_eq_self.mpr fun r hr => ?_
      have := (hrefs r hr).path
      rw [← hpath, ite_self] at this
      simpa using this
    rw [explainedRanges, hall]
    exact ⟨fun _ => .inl hpath, fun _ => rfl⟩
  · rw [explainedRanges, filter_filePath_old hrefs hpath, eq_comm]
    have hsymbols : ∀ r ∈ own.filterMap (fun change => rangeAt file.base.filePath change.old),
        r.1 ≤ r.2 := by
      intro r hr
      obtain ⟨change, hchange, hrange⟩ := mem_filterMap.mp hr
      exact ordered_rangeAt (hchanges change (mem_of_mem_filter hchange) .base) r hrange
    have hlines : ∀ r ∈ refs.filterMap (·.oldLineRange), r.1 ≤ r.2 := by
      intro r hr
      obtain ⟨ref, href, hrange⟩ := mem_filterMap.mp hr
      exact (hrefs ref href).oldLines r hrange
    have hremoved : ∀ r ∈ (refs.filter (·.kind = .removed)).filterMap (·.oldLineRange),
        r.1 ≤ r.2 := by
      intro r hr
      obtain ⟨ref, href, hrange⟩ := mem_filterMap.mp hr
      exact (hrefs ref (mem_of_mem_filter href)).oldLines r hrange
    rw [residualSpans_eq_iff (fun r hr => (mem_append.mp hr).elim (hsymbols r) (hlines r))
      (fun r hr => (mem_append.mp hr).elim (hsymbols r) (hremoved r))
      (fun n hn => spanned_append.mpr ((spanned_append.mp hn).imp_right fun h =>
        (spanned_oldLineRange hrefs).mpr (.inr h)))]
    rw [RetargetsExplained, or_iff_right hpath]
    refine forall₂_congr fun hunk _ => forall_congr' fun n => ?_
    refine imp_congr_right fun _ => imp_congr_right fun _ => ?_
    rw [spanned_append, spanned_oldLineRange hrefs]
    refine ⟨fun h hc => h (.inr (.inl hc)), fun h hc => ?_⟩
    rcases hc with hc | hc | hc
    · exact spanned_append.mpr (.inl hc)
    · exact h hc
    · exact spanned_append.mpr (.inr hc)

/-! ## When the reports agree -/

theorem DiffFile.moved_impactPair (file : DiffFile) :
    file.impactPair.moved = file.sidePair.fileMoved := by
  by_cases hstatus : file.status = .renamed
  · simp [moved, impactPair, sidePair, hstatus]
  · simp [moved, impactPair, sidePair, hstatus, file.samePath hstatus]

theorem impactInputs_eq (files : List DiffFile) :
    (files.map (·.impactPair)).map impactInputs = (files.map (·.sidePair)).map reviewInputs := by
  rw [map_map, map_map]
  refine map_congr_left fun file _ => ?_
  simp only [Function.comp_apply, impactInputs, reviewInputs, file.moved_impactPair]
  rfl

theorem impactContext_eq (changes : List SymbolChange) (files : List DiffFile) :
    impactContext changes (files.map (·.impactPair)) =
      reviewContext changes (files.map (·.sidePair)) := by
  have hmoved : ((files.map (·.impactPair)).filter (·.moved)).map (fun p => (p.old, p.new)) =
      ((files.map (·.sidePair)).filter (·.fileMoved)).map fun p => (p.base, p.current) := by
    rw [filter_map, filter_map, map_map, map_map]
    have hfilter : files.filter ((·.moved) ∘ (·.impactPair)) =
        files.filter ((·.fileMoved) ∘ (·.sidePair)) :=
      filter_congr fun file _ => file.moved_impactPair
    rw [hfilter]
    rfl
  rw [impactContext, reviewContext, hmoved]

/-- The second report pairs the references of a file as the first one does, and computes its own
facts. -/
theorem impactFacts_of_reviewFacts {changes : List SymbolChange} {ctx : RenameContext} :
    ∀ {files : List DiffFile} {facts : List (List RefChange × FileFacts)},
      (files.map (·.sidePair)).mapM (fun pair => (pairRefs pair.base pair.current ctx).map
        fun refs => (refs, pair.pairFacts changes refs)) = some facts →
      (files.map (·.impactPair)).mapM (fun pair => (pairRefs pair.old pair.new ctx).map
          fun refs => (refs, pair.fileFacts changes refs)) =
        some (zipWith (fun file fact => (fact.1, file.impactPair.fileFacts changes fact.1))
          files facts) ∧
      Forall₂ (fun file fact => pairRefs file.base file.current ctx = some fact.1 ∧
        fact.2 = file.sidePair.pairFacts changes fact.1) files facts
  | [], facts, h => by
    obtain rfl : [] = facts := Option.some.inj h
    exact ⟨rfl, .nil⟩
  | file :: files, facts, h => by
    rw [map_cons, mapM_cons, Option.bind_eq_bind, Option.bind_eq_some_iff] at h
    obtain ⟨fact, hfact, h⟩ := h
    rw [Option.bind_eq_bind, Option.bind_eq_some_iff] at h
    obtain ⟨rest, hrest, h⟩ := h
    obtain rfl := Option.some.inj h
    obtain ⟨refs, hrefs, rfl⟩ := Option.map_eq_some_iff.mp hfact
    obtain ⟨himpact, hall⟩ := impactFacts_of_reviewFacts hrest
    have hrefs' : pairRefs file.impactPair.old file.impactPair.new ctx = some refs := hrefs
    rw [map_cons, mapM_cons, himpact, hrefs']
    exact ⟨rfl, .cons ⟨hrefs, rfl⟩ hall⟩

/-- Both reports find the same symbol and reference changes. The facts of a file are the same in
both, if and only if its retargeted references are explained without their old ranges. -/
theorem reports_agree_iff (env : PairingEnv) (order : RunOrder) (files : List DiffFile)
    (facts : List (List RefChange × FileFacts)) :
    let changes := semanticChanges env order ((files.map (·.sidePair)).map reviewInputs)
    reviewFacts changes (files.map (·.sidePair)) = some facts →
      semanticChanges env order ((files.map (·.impactPair)).map impactInputs) = changes ∧
      ∃ facts', impactFacts changes (files.map (·.impactPair)) = some facts' ∧
        facts'.map (·.1) = facts.map (·.1) ∧
        ∀ (i : ℕ) (file : DiffFile) (refs : List RefChange) (own : FileFacts),
          files[i]? = some file → facts[i]? = some (refs, own) →
            (facts'[i]? = some (refs, own) ↔ file.RetargetsExplained changes refs) := by
  intro changes h
  obtain ⟨himpact, hall⟩ := impactFacts_of_reviewFacts h
  have hcontext := impactContext_eq changes files
  rw [← hcontext] at himpact
  refine ⟨congrArg _ (impactInputs_eq files), _, himpact, ?_, ?_⟩
  · rw [map_zipWith]
    have hlen := hall.length_eq
    exact ext_getElem (by simp [hlen]) fun i hi hi' => by simp
  · intro i file refs own hfile hfact
    have hzip : (List.zipWith (fun file fact => (fact.1, file.impactPair.fileFacts changes fact.1))
        files facts)[i]? = some (refs, file.impactPair.fileFacts changes refs) := by
      rw [getElem?_zipWith, hfile, hfact]
    obtain ⟨hlt, hget⟩ := List.getElem?_eq_some_iff.mp hfile
    obtain ⟨hlt', hget'⟩ := List.getElem?_eq_some_iff.mp hfact
    obtain ⟨hrefs, hown⟩ := List.Forall₂.get hall hlt hlt'
    rw [get_eq_getElem, get_eq_getElem, hget, hget'] at hrefs hown
    replace hown : own = file.sidePair.pairFacts changes refs := hown
    rw [hzip, Option.some.injEq, Prod.mk.injEq, hown, eq_self, true_and]
    exact file.fileFacts_eq_iff (ordered_semanticChanges env order _) (placed_pairRefs hrefs)

/-! ## An import in a renamed file -/

/-- A module with an import on its first line. -/
def importingFile (name path : String)
    (h : ∀ s ∈ [("module", name)].map segmentOf, s.Admitted) : FileSide where
  lang := .rs
  graph := CodeGraph.fromRecords [byteDef "module" (appMoniker [("module", name)] h) none]
    [{ source := 0
       target := appMoniker [("module", "util")] (by decide)
       kind := byteString "imports_module"
       position := some (0, 3)
       receiverHint := []
       aliasName := []
       confidence := []
       callName := []
       callArity := none
       binding := bindImport }]
  source := byteString "use\n//\n"
  filePath := [path]

theorem admitted_a : ∀ s ∈ [("module", "a")].map segmentOf, s.Admitted := by decide

theorem admitted_b : ∀ s ∈ [("module", "b")].map segmentOf, s.Admitted := by decide

/-- `a.rs` becomes `b.rs`, and the line of the import is in a hunk. -/
def renamedImport : DiffFile where
  base := importingFile "a" "a.rs" admitted_a
  current := importingFile "b" "b.rs" admitted_b
  status := .renamed
  oldHunks := [(1, 1)]
  newHunks := [(1, 1)]
  samePath h := absurd rfl h

/-- The same file with a hunk on the line below. -/
def renamedBelow : DiffFile :=
  { renamedImport with oldHunks := [(2, 2)], newHunks := [(2, 2)] }

def renamedBelowChanges : List SymbolChange :=
  semanticChanges lengthEnv foundOrder (([renamedBelow].map (·.sidePair)).map reviewInputs)

theorem reports_agree_renamedBelow : ∃ fact,
    reviewFacts renamedBelowChanges ([renamedBelow].map (·.sidePair)) = some [fact] ∧
      impactFacts renamedBelowChanges ([renamedBelow].map (·.impactPair)) = some [fact] := by
  obtain ⟨facts, hfacts⟩ := Option.isSome_iff_exists.mp (by decide :
    (reviewFacts renamedBelowChanges ([renamedBelow].map (·.sidePair))).isSome)
  have hbelow : ∀ facts ∈ reviewFacts renamedBelowChanges ([renamedBelow].map (·.sidePair)),
      ∀ fact ∈ facts,
        ¬Spanned ((fact.1.filter (·.kind.isRetarget)).filterMap (·.oldLineRange)) 2 := by
    decide +kernel
  obtain ⟨-, facts', hfacts', hrefs, hall⟩ :=
    reports_agree_iff lengthEnv foundOrder [renamedBelow] facts hfacts
  obtain ⟨fact, rfl⟩ := length_eq_one_iff.mp (forall₂_of_mapM hfacts).length_eq.symm
  obtain ⟨fact', rfl⟩ := length_eq_one_iff.mp (by simpa using congrArg List.length hrefs)
  have hsame := (hall 0 renamedBelow fact.1 fact.2 rfl rfl).mpr <| .inr fun _ hhunk n hle hge h => by
    obtain rfl := mem_singleton.mp hhunk
    obtain rfl : n = 2 := le_antisymm hge hle
    exact absurd h (hbelow _ hfacts fact mem_cons_self)
  obtain rfl : fact' = fact := Option.some.inj hsame
  exact ⟨fact', hfacts, hfacts'⟩

/-- The review explains the old line of the import, and the impact does not. -/
theorem reports_disagree_renamedImport : ¬∀ (env : PairingEnv) (order : RunOrder)
    (files : List DiffFile),
    impactFacts (semanticChanges env order ((files.map (·.impactPair)).map impactInputs))
        (files.map (·.impactPair)) =
      reviewFacts (semanticChanges env order ((files.map (·.sidePair)).map reviewInputs))
        (files.map (·.sidePair)) := by
  intro h
  exact absurd (h lengthEnv foundOrder [renamedImport]) (by decide +kernel)

end CodeMoniker
