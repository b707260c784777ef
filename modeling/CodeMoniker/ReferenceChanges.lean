import CodeMoniker.PairingPlaces

/-!
# Pairing the references of two versions of a file

References that are equal on both sides cancel. A reference of the base version whose source or
target was renamed is paired with the reference of the current version that it becomes
(`pairRetargets`), and the rest is removed or added (`pairRefs`).

`none` stands for a reference whose source is not a definition of its graph.
-/

namespace CodeMoniker

open List Option ByteCodec Traversals

inductive RefChangeKind where
  | importRetargeted
  | callSiteRetargeted
  | added
  | removed
  deriving DecidableEq, Repr

def RefChangeKind.isRetarget : RefChangeKind → Bool
  | importRetargeted | callSiteRetargeted => true
  | added | removed => false

structure RefChange where
  kind : RefChangeKind
  filePath : MemoryPath
  refKind : String
  oldSource : Option Moniker
  newSource : Option Moniker
  oldTarget : Option Moniker
  newTarget : Option Moniker
  oldLineRange : Option (ℕ × ℕ)
  newLineRange : Option (ℕ × ℕ)
  deriving DecidableEq

/-! ## Renames -/

structure RenameContext where
  pairs : List (Moniker × Moniker)

namespace RenameContext

def fromChanges (changes : List SymbolChange) : RenameContext where
  pairs := changes.filterMap fun change => do
    let old ← change.old
    let new ← change.new
    if old.moniker ≠ new.moniker then some (old.moniker, new.moniker) else none

variable (ctx : RenameContext)

def pushPair (old new : Moniker) : RenameContext :=
  if old ≠ new then ⟨ctx.pairs ++ [(old, new)]⟩ else ctx

/-- The roots of two graphs. A graph has a root. -/
def pushRoots (old new : CodeGraph) : RenameContext :=
  match old.root, new.root with
  | some old, some new => ctx.pushPair old new
  | _, _ => ctx

/-- The longest renamed ancestor. The first one stays on a tie. -/
def best (target : Moniker) (pairs : List (Moniker × Moniker)) : Option (Moniker × Moniker) :=
  pairs.foldl (fun best pair =>
    if pair.1.isAncestorOf target = false then best
    else if best.all fun kept => kept.1.bytes.length < pair.1.bytes.length then some pair
    else best) none

def apply (target : Moniker) : Option Moniker :=
  (best target ctx.pairs).bind fun pair =>
    (Moniker.fromEncoded (pair.2.bytes ++ target.bytes.drop pair.1.bytes.length)).toOption

end RenameContext

/-! ## Facts -/

abbrev RefKey := Bytes × Bytes × Bytes × Option ℕ × Bytes × Bytes

structure RefFact where
  rawKey : RefKey
  mappedKey : Option RefKey
  refKind : String
  isImport : Bool
  source : Moniker
  target : Moniker
  lineRange : Option (ℕ × ℕ)

abbrev RefSlots := List (Option RefFact)

def refKey (record : RefRecord) (source target : Moniker) : RefKey :=
  (source.bytes, target.bytes, record.kind, record.callArity, record.aliasName, record.binding)

def refKind (record : RefRecord) : String := (fromUtf8 record.kind).getD "?"

def bindImport : Bytes := byteString "import"

def mappedKey (ctx : RenameContext) (record : RefRecord) (source : Moniker) : Option RefKey :=
  match ctx.apply source, ctx.apply record.target with
  | none, none => none
  | mappedSource, mappedTarget =>
    some (refKey record (mappedSource.getD source) (mappedTarget.getD record.target))

def refFact (file : FileSide) (lines : LineIndex) (ctx : Option RenameContext)
    (record : RefRecord) : Option RefFact := do
  let owner ← file.graph.defAt record.source
  let source := owner.moniker
  return {
    rawKey := refKey record source record.target
    mappedKey := ctx.bind fun ctx => mappedKey ctx record source
    refKind := refKind record
    isImport := record.binding = bindImport
    source
    target := record.target
    lineRange := record.position.map lines.lineRange }

def collectRefFacts (file : FileSide) (ctx : Option RenameContext) : Option RefSlots :=
  (file.graph.refs.mapM (refFact file (LineIndex.new file.source) ctx)).map (·.map some)

/-! ## Pairs -/

/-- The map of the source lists the slots of a key in order, and a slot that is popped is emptied.
So this is what `pop` gives : the last slot that still holds the key. -/
def popSlot (key : RefKey) (slots : RefSlots) : Option ℕ :=
  (slots.zipIdx.filter fun slot => slot.1.any fun fact => fact.rawKey = key).getLast?.map (·.2)

/-- The loop over the old slots. It gives the old and the new slots. -/
def cancelUnchanged (new : RefSlots) : RefSlots → RefSlots × RefSlots
  | [] => ([], new)
  | none :: old =>
    let (old, new) := cancelUnchanged new old
    (none :: old, new)
  | some fact :: old =>
    match popSlot fact.rawKey new with
    | none =>
      let (old, new) := cancelUnchanged new old
      (some fact :: old, new)
    | some newIdx =>
      let (old, new) := cancelUnchanged (new.set newIdx none) old
      (none :: old, new)

variable (path : MemoryPath)

def retargetChange (old new : RefFact) : RefChange where
  kind := if old.isImport then .importRetargeted else .callSiteRetargeted
  filePath := path
  refKind := new.refKind
  oldSource := some old.source
  newSource := some new.source
  oldTarget := some old.target
  newTarget := some new.target
  oldLineRange := old.lineRange
  newLineRange := new.lineRange

/-- The new slot that the renames make of an old fact. -/
def retargetSlot (fact : RefFact) (new : RefSlots) : Option (ℕ × RefFact) :=
  (fact.mappedKey.bind fun key => popSlot key new).bind fun newIdx =>
    new[newIdx]?.join.map (newIdx, ·)

/-- The loop over the old slots. It gives the old and the new slots and the changes. -/
def pairRetargets (path : MemoryPath) (new : RefSlots) :
    RefSlots → RefSlots × RefSlots × List RefChange
  | [] => ([], new, [])
  | none :: old =>
    let (old, new, changes) := pairRetargets path new old
    (none :: old, new, changes)
  | some fact :: old =>
    match retargetSlot fact new with
    | none =>
      let (old, new, changes) := pairRetargets path new old
      (some fact :: old, new, changes)
    | some (newIdx, fact') =>
      let (old, new, changes) := pairRetargets path (new.set newIdx none) old
      (none :: old, new, retargetChange path fact fact' :: changes)

def removedRef (fact : RefFact) : RefChange where
  kind := .removed
  filePath := path
  refKind := fact.refKind
  oldSource := some fact.source
  newSource := none
  oldTarget := some fact.target
  newTarget := none
  oldLineRange := fact.lineRange
  newLineRange := none

def addedRef (fact : RefFact) : RefChange where
  kind := .added
  filePath := path
  refKind := fact.refKind
  oldSource := none
  newSource := some fact.source
  oldTarget := none
  newTarget := some fact.target
  oldLineRange := none
  newLineRange := fact.lineRange

def pairRefs (base current : FileSide) (ctx : RenameContext) : Option (List RefChange) := do
  let oldFacts ← collectRefFacts base (some ctx)
  let newFacts ← collectRefFacts current none
  let (oldFacts, newFacts) := cancelUnchanged newFacts oldFacts
  let (oldFacts, newFacts, changes) := pairRetargets current.filePath newFacts oldFacts
  return changes ++ (oldFacts.filterMap id).map (removedRef base.filePath) ++
    (newFacts.filterMap id).map (addedRef current.filePath)

/-! ## What a reference change holds -/

/-- Lines of a range. -/
def OrderedRange (range : Option (ℕ × ℕ)) : Prop := ∀ r ∈ range, r.1 ≤ r.2

/-- A removed reference is one of the base file and has no current lines. The others are of the
current file, and an added one has no base lines. -/
structure RefChange.Placed (old new : MemoryPath) (r : RefChange) : Prop where
  path : r.filePath = if r.kind = .removed then old else new
  removed : r.kind = .removed → r.newLineRange = none
  added : r.kind = .added → r.oldLineRange = none
  oldLines : OrderedRange r.oldLineRange
  newLines : OrderedRange r.newLineRange

theorem orderedRange_lineRange (lines : LineIndex) (span : Option Position) :
    OrderedRange (span.map lines.lineRange) := by
  intro r hr
  obtain ⟨p, -, rfl⟩ := map_eq_some_iff.mp hr
  exact lines.lineRange_le p

/-- Every fact in the slots has ordered lines. -/
def RefSlots.Ordered (slots : RefSlots) : Prop :=
  ∀ fact, some fact ∈ slots → OrderedRange fact.lineRange

theorem ordered_collectRefFacts {file : FileSide} {ctx : Option RenameContext} {slots : RefSlots}
    (h : collectRefFacts file ctx = some slots) : slots.Ordered := by
  obtain ⟨facts, hfacts, rfl⟩ := map_eq_some_iff.mp h
  intro fact hfact
  obtain ⟨fact', hmem, heq⟩ := List.mem_map.mp hfact
  obtain rfl := some.inj heq
  obtain ⟨record, -, hrecord⟩ := mem_of_mapM hfacts hmem
  obtain ⟨owner, -, hfact⟩ := bind_eq_some_iff.mp hrecord
  obtain rfl := some.inj hfact
  exact orderedRange_lineRange _ _

/-- Cancelling only empties slots. -/
theorem mem_cancelUnchanged {fact : RefFact} : ∀ {new old : RefSlots},
    (some fact ∈ (cancelUnchanged new old).1 → some fact ∈ old) ∧
      (some fact ∈ (cancelUnchanged new old).2 → some fact ∈ new)
  | new, [] => ⟨id, id⟩
  | new, none :: old => by
    have ih := @mem_cancelUnchanged fact new old
    simp only [cancelUnchanged, mem_cons, reduceCtorEq, false_or]
    exact ih
  | new, some f :: old => by
    simp only [cancelUnchanged]
    split
    · have ih := @mem_cancelUnchanged fact new old
      simp only [mem_cons]
      exact ⟨Or.imp_right ih.1, ih.2⟩
    · next newIdx _ =>
      have ih := @mem_cancelUnchanged fact (new.set newIdx none) old
      refine ⟨fun h => ?_, fun h => ?_⟩
      · exact .tail _ (ih.1 (by simpa using h))
      · exact (mem_or_eq_of_mem_set (ih.2 h)).resolve_right (by simp)

theorem mem_pairRetargets {path : MemoryPath} {fact : RefFact} : ∀ {new old : RefSlots},
    (some fact ∈ (pairRetargets path new old).1 → some fact ∈ old) ∧
      (some fact ∈ (pairRetargets path new old).2.1 → some fact ∈ new)
  | new, [] => ⟨id, id⟩
  | new, none :: old => by
    have ih := @mem_pairRetargets path fact new old
    simp only [pairRetargets, mem_cons, reduceCtorEq, false_or]
    exact ih
  | new, some f :: old => by
    simp only [pairRetargets]
    split
    · have ih := @mem_pairRetargets path fact new old
      simp only [mem_cons]
      exact ⟨Or.imp_right ih.1, ih.2⟩
    · next newIdx _ _ =>
      have ih := @mem_pairRetargets path fact (new.set newIdx none) old
      refine ⟨fun h => ?_, fun h => ?_⟩
      · exact .tail _ (ih.1 (by simpa using h))
      · exact (mem_or_eq_of_mem_set (ih.2 h)).resolve_right (by simp)

/-- A retargeted reference pairs an old and a new fact. -/
theorem mem_pairRetargets_changes {path : MemoryPath} {c : RefChange} : ∀ {new old : RefSlots},
    c ∈ (pairRetargets path new old).2.2 → ∃ fact fact', some fact ∈ old ∧ some fact' ∈ new ∧
      c = retargetChange path fact fact'
  | new, none :: old, h => by
    obtain ⟨fact, fact', hold, hnew, rfl⟩ := @mem_pairRetargets_changes path c new old h
    exact ⟨fact, fact', .tail _ hold, hnew, rfl⟩
  | new, some f :: old, h => by
    simp only [pairRetargets] at h
    split at h
    · obtain ⟨fact, fact', hold, hnew, rfl⟩ := @mem_pairRetargets_changes path c new old h
      exact ⟨fact, fact', .tail _ hold, hnew, rfl⟩
    · next newIdx f' hslot =>
      rcases mem_cons.mp h with rfl | h
      · obtain ⟨i, -, hi⟩ := bind_eq_some_iff.mp hslot
        obtain ⟨e, he, hpair⟩ := map_eq_some_iff.mp hi
        obtain ⟨rfl, rfl⟩ := Prod.mk.inj hpair
        exact ⟨f, e, .head _, mem_of_getElem? (join_eq_some_iff.mp he), rfl⟩
      · obtain ⟨fact, fact', hold, hnew, rfl⟩ :=
          @mem_pairRetargets_changes path c (new.set newIdx none) old h
        exact ⟨fact, fact', .tail _ hold, (mem_or_eq_of_mem_set hnew).resolve_right (by simp), rfl⟩

theorem placed_pairRefs {base current : FileSide} {ctx : RenameContext} {refs : List RefChange}
    (h : pairRefs base current ctx = some refs) :
    ∀ r ∈ refs, r.Placed base.filePath current.filePath := by
  obtain ⟨oldFacts, hold, h⟩ := bind_eq_some_iff.mp h
  obtain ⟨newFacts, hnew, h⟩ := bind_eq_some_iff.mp h
  obtain rfl := some.inj h
  have hold := ordered_collectRefFacts hold
  have hnew := ordered_collectRefFacts hnew
  have hold' : RefSlots.Ordered (cancelUnchanged newFacts oldFacts).1 :=
    fun fact hfact => hold fact (mem_cancelUnchanged.1 hfact)
  have hnew' : RefSlots.Ordered (cancelUnchanged newFacts oldFacts).2 :=
    fun fact hfact => hnew fact (mem_cancelUnchanged.2 hfact)
  have hfacts : ∀ {slots : RefSlots} {fact : RefFact}, fact ∈ slots.filterMap id →
      some fact ∈ slots := by
    intro slots fact hfact
    obtain ⟨slot, hslot, rfl⟩ := mem_filterMap.mp hfact
    exact hslot
  intro r hr
  rcases mem_append.mp hr with hr | hr
  · rcases mem_append.mp hr with hr | hr
    · obtain ⟨fact, fact', hfact, hfact', rfl⟩ := mem_pairRetargets_changes hr
      have hkind : (retargetChange current.filePath fact fact').kind ≠ .removed ∧
          (retargetChange current.filePath fact fact').kind ≠ .added := by
        unfold retargetChange
        dsimp only
        split_ifs <;> simp
      exact ⟨(if_neg hkind.1).symm, fun h => absurd h hkind.1, fun h => absurd h hkind.2,
        hold' fact hfact, hnew' fact' hfact'⟩
    · obtain ⟨fact, hfact, rfl⟩ := List.mem_map.mp hr
      exact ⟨rfl, fun _ => rfl, fun h => (nomatch h),
        hold' fact (mem_pairRetargets.1 (hfacts hfact)), fun _ h => nomatch h⟩
  · obtain ⟨fact, hfact, rfl⟩ := List.mem_map.mp hr
    exact ⟨rfl, fun h => (nomatch h), fun _ => rfl, fun _ h => (nomatch h),
      hnew' fact (mem_pairRetargets.2 (hfacts hfact))⟩

end CodeMoniker
