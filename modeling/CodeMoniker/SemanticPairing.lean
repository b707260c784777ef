import CodeMoniker.Fingerprints
import CodeMoniker.MemorySources

/-!
# Pairing the definitions of two versions of a file

The definitions of the base and of the current version of a file stand in slots. Stages take them
out of the slots in pairs : definitions with the same tail, then those that differ in their
parameters, then those that differ in their name. A rename rewrites the tails of what stood under
the old name, and the stages run again. What is left in the slots is collapsed to its roots, and
the roots of all files are paired once more by their text (`finishFiles`).

The stages group slots in hash maps. The order in which a map gives out its groups is a parameter
(`HashOrder`). The pairs that no facet tells apart, and the definitions that collapse, are dropped
by the source. They are kept here beside what it returns, and nothing reads them.
-/

namespace CodeMoniker

open ByteCodec

/-! ## Changes -/

inductive SemanticKind where
  | added
  | removed
  | bodyModified
  | signatureChanged
  | renamed
  | moved
  | attributeChanged
  deriving DecidableEq, Repr

inductive Confidence where
  | certain
  | candidate
  deriving DecidableEq, Repr

structure ChangeFacets where
  bodyChanged : Bool := false
  signatureChanged : Bool := false
  visibilityChanged : Bool := false
  headerChanged : Bool := false
  fileMoved : Bool := false
  deriving DecidableEq, Repr

def ChangeFacets.any (f : ChangeFacets) : Bool :=
  f.bodyChanged || f.signatureChanged || f.visibilityChanged || f.headerChanged || f.fileMoved

structure SymbolSide where
  moniker : Moniker
  filePath : MemoryPath
  kind : String
  name : String
  visibility : String
  signature : String
  lineRange : Option (ℕ × ℕ)
  bodyHash : ℕ
  deriving DecidableEq

structure SymbolChange where
  kind : SemanticKind
  confidence : Confidence
  facets : ChangeFacets
  old : Option SymbolSide
  new : Option SymbolSide
  deriving DecidableEq

/-! ## Slots -/

structure FileSide where
  lang : Lang
  graph : CodeGraph
  source : Bytes
  filePath : MemoryPath

structure PairInputs where
  base : FileSide
  current : FileSide
  fileMoved : Bool

structure SideDef where
  tail : IdentityTail
  baseName : Bytes
  params : Option Bytes
  hasBody : Bool
  textHash : ℕ
  fullHash : ℕ
  side : SymbolSide
  deriving DecidableEq

/-- Which definitions a language shows, and the hasher of the fingerprints. -/
structure PairingEnv where
  isNavigableDef : Lang → DefRecord → Bool
  hash : Bytes → ℕ

abbrev Slots := List (Option SideDef)

/-- What is left in the slots. -/
def Slots.defs (slots : Slots) : List SideDef := slots.filterMap id

section Collect

variable (env : PairingEnv)

def FileSide.navigableDefs (file : FileSide) : List DefRecord :=
  file.graph.defs.filter (env.isNavigableDef file.lang)

def defKind (d : DefRecord) : String := (fromUtf8 d.kind).getD "?"

/-- `none` for a definition that does not lie below the root of its graph. -/
def sideDef (file : FileSide) (nestedSpans : List Position) (lines : LineIndex) (d : DefRecord) :
    Option SideDef := do
  let root ← file.graph.root
  let tail ← identityTail d.moniker root
  let last ← tail.getLast?
  let (baseName, params) := splitCallableName last.name
  let prints := (d.position.map fun span =>
    defFingerprints env.hash file.source span baseName nestedSpans).getD {}
  return {
    tail
    baseName
    params
    hasBody := d.position.isSome
    textHash := prints.text
    fullHash := prints.full
    side := {
      moniker := d.moniker
      filePath := file.filePath
      kind := defKind d
      name := lastName d.moniker
      visibility := fromUtf8Lossy d.visibility
      signature := fromUtf8Lossy d.signature
      lineRange := d.position.map lines.lineRange
      bodyHash := prints.body } }

def collectSideDefs (file : FileSide) : Slots :=
  let lines := LineIndex.new file.source
  let nestedSpans := (file.navigableDefs env).filterMap (·.position)
  ((file.navigableDefs env).filterMap (sideDef env file nestedSpans lines)).map some

end Collect

/-! ## Definitions with the same tail -/

def pairedChange (kind : SemanticKind) (facets : ChangeFacets) (old new : SideDef) : SymbolChange :=
  ⟨kind, .certain, facets, some old.side, some new.side⟩

def matchedFacets (fileMoved : Bool) (old new : SideDef) : ChangeFacets :=
  let comparable := old.hasBody && new.hasBody
  let bodyChanged := comparable && old.side.bodyHash ≠ new.side.bodyHash
  let textChanged := comparable && old.textHash ≠ new.textHash
  { bodyChanged
    signatureChanged := old.side.signature ≠ new.side.signature || old.params ≠ new.params
    visibilityChanged := old.side.visibility ≠ new.side.visibility
    headerChanged := textChanged && !bodyChanged
    fileMoved }

def classifyMatched (fileMoved : Bool) (old new : SideDef) : Option SymbolChange :=
  let facets := matchedFacets fileMoved old new
  if facets.any = false then none
  else
    let kind :=
      if fileMoved then .moved
      else if facets.bodyChanged then .bodyModified
      else if facets.signatureChanged then .signatureChanged
      else .attributeChanged
    some (pairedChange kind facets old new)

structure PairingState where
  old : Slots
  new : Slots
  changes : List SymbolChange := []
  matched : List (SideDef × SideDef) := []
  fileMoved : Bool

/-- The slots by their tails. A later slot replaces an earlier one. -/
def slotsByTail (slots : Slots) : AList fun _ : IdentityTail => ℕ :=
  slots.zipIdx.foldl (fun byTail slot =>
    match slot.1 with
    | some d => byTail.insert d.tail slot.2
    | none => byTail) ∅

/-- The loop over the old slots. It gives the old slots, the new slots and the pairs. -/
def exactTails (byTail : AList fun _ : IdentityTail => ℕ) (new : Slots) :
    Slots → Slots × Slots × List (SideDef × SideDef)
  | [] => ([], new, [])
  | none :: old =>
    let (old, new, pairs) := exactTails byTail new old
    (none :: old, new, pairs)
  | some d :: old =>
    match (byTail.lookup d.tail).bind fun newIdx => (new[newIdx]?.join).map (newIdx, ·) with
    | none =>
      let (old, new, pairs) := exactTails byTail new old
      (some d :: old, new, pairs)
    | some (newIdx, n) =>
      let (old, new, pairs) := exactTails (byTail.erase d.tail) (new.set newIdx none) old
      (none :: old, new, (d, n) :: pairs)

def pairExactTails (s : PairingState) : PairingState :=
  let (old, new, pairs) := exactTails (slotsByTail s.new) s.new s.old
  { s with
    old
    new
    changes := s.changes ++ pairs.filterMap fun p => classifyMatched s.fileMoved p.1 p.2
    matched := s.matched ++ pairs.filter fun p => classifyMatched s.fileMoved p.1 p.2 = none }

/-! ## Groups -/

/-- The old and the new slots with one key. -/
abbrev SlotGroup := List ℕ × List ℕ

/-- The order in which the hash map of a call gives out its groups. -/
structure HashOrder where
  values : ℕ → List SlotGroup → List SlotGroup
  perm : ∀ call groups, (values call groups).Perm groups

section Groups

variable {κ : Type} [DecidableEq κ] (key : SideDef → Option κ)

/-- The slots with a key. -/
def slotsWith (k : κ) (slots : Slots) : List ℕ :=
  (slots.zipIdx.filter fun slot => slot.1.bind key = some k).map (·.2)

/-- `collect_groups` of the old and the new slots. -/
def slotGroups (old new : Slots) : List SlotGroup :=
  ((old ++ new).filterMap (·.bind key)).dedup.map fun k =>
    (slotsWith key k old, slotsWith key k new)

end Groups

/-- What the loop over the groups has left in the slots, and the pairs it has taken. -/
structure GroupPairing where
  old : Slots
  new : Slots
  pairs : List (SideDef × SideDef) := []

/-- A group of one old and one new slot is taken, if `accept` holds of the two. -/
def takeGroup (accept : SideDef → SideDef → Bool) (s : GroupPairing) : SlotGroup → GroupPairing
  | ([oldIdx], [newIdx]) =>
    match s.old[oldIdx]?.join, s.new[newIdx]?.join with
    | some old, some new =>
      if accept old new then
        { old := s.old.set oldIdx none
          new := s.new.set newIdx none
          pairs := s.pairs ++ [(old, new)] }
      else s
    | _, _ => s
  | _ => s

/-- The loop that the stages share. -/
def pairGroups {κ : Type} [DecidableEq κ] (order : HashOrder) (call : ℕ)
    (key : SideDef → Option κ) (accept : SideDef → SideDef → Bool) (old new : Slots) :
    GroupPairing :=
  (order.values call (slotGroups key old new)).foldl (takeGroup accept) { old, new }

/-! ## Signatures and names -/

abbrev RenameMap := List (IdentityTail × IdentityTail)

/-- The stage with one change for each pair, and the tails of the pairs. -/
def PairingState.pairBy {κ : Type} [DecidableEq κ] (order : HashOrder) (call : ℕ)
    (key : SideDef → Option κ) (accept : SideDef → SideDef → Bool)
    (change : SideDef → SideDef → SymbolChange) (s : PairingState) : PairingState × RenameMap :=
  let r := pairGroups order call key accept s.old s.new
  ({ s with
      old := r.old
      new := r.new
      changes := s.changes ++ r.pairs.map fun p => change p.1 p.2 },
    r.pairs.map fun p => (p.1.tail, p.2.tail))

def signatureKey (d : SideDef) : Option (IdentityTail × String × Bytes) :=
  d.params.map fun _ => (d.tail.parent, d.side.kind, d.baseName)

def signatureChange (fileMoved : Bool) (old new : SideDef) : SymbolChange :=
  pairedChange .signatureChanged
    { signatureChanged := true
      visibilityChanged := old.side.visibility ≠ new.side.visibility
      fileMoved } old new

variable (order : HashOrder)

def pairSignatureChanges (call : ℕ) (s : PairingState) :
    PairingState × RenameMap :=
  s.pairBy order call signatureKey (fun _ _ => true) (signatureChange s.fileMoved)

def renameKey (d : SideDef) : Option (IdentityTail × String × ℕ) :=
  if d.hasBody then some (d.tail.parent, d.side.kind, d.textHash) else none

def renameChange (fileMoved : Bool) (old new : SideDef) : SymbolChange :=
  pairedChange .renamed
    { signatureChanged := old.params ≠ new.params
      visibilityChanged := old.side.visibility ≠ new.side.visibility
      fileMoved } old new

def pairRenames (call : ℕ) (s : PairingState) : PairingState × RenameMap :=
  s.pairBy order call renameKey (fun old new => old.baseName ≠ new.baseName)
    (renameChange s.fileMoved)

/-- Both stages, with their renames. The two calls are numbered from the round. -/
def pairSignaturesAndNames (round : ℕ) (s : PairingState) :
    PairingState × RenameMap :=
  let (s, renames) := pairSignatureChanges order (2 * round) s
  let (s, more) := pairRenames order (2 * round + 1) s
  (s, renames ++ more)

/-! ## Containers -/

/-- The tail after the first rename that matches it. -/
def rewriteTail (renames : RenameMap) (tail : IdentityTail) : Option IdentityTail :=
  renames.findSome? fun r => tail.rewritePrefix r.1 r.2

def rewriteSlot (renames : RenameMap) (slot : Option SideDef) : Option SideDef :=
  slot.map fun d => { d with tail := (rewriteTail renames d.tail).getD d.tail }

/-- The slots, and whether one was rewritten. -/
def rewriteTails (slots : Slots) (renames : RenameMap) : Slots × Bool :=
  (slots.map (rewriteSlot renames),
    slots.any fun slot => slot.any fun d => (rewriteTail renames d.tail).isSome)

/-- The loop of `propagate_container_renames`. A round with a rename has taken an old slot, so
there are at most as many as slots. -/
def propagateContainerRenames (order : HashOrder) :
    ℕ → ℕ → PairingState → RenameMap → PairingState
  | 0, _, s, _ => s
  | fuel + 1, round, s, renames =>
    if renames = [] then s
    else
      let (old, rewrote) := rewriteTails s.old renames
      if rewrote = false then { s with old }
      else
        let (s, next) := pairSignaturesAndNames order round (pairExactTails { s with old })
        propagateContainerRenames order fuel (round + 1) s next

/-! ## Roots -/

/-- The tail extends another one. -/
def isCollapsed (tails : List IdentityTail) (d : SideDef) : Bool :=
  tails.any fun tail => tail ≠ d.tail && d.tail.startsWith tail

structure FilePairing where
  changes : List SymbolChange
  unpairedOld : List SideDef
  unpairedNew : List SideDef
  matched : List (SideDef × SideDef)
  collapsedOld : List SideDef
  collapsedNew : List SideDef

/-- `collapsed_roots`, and what it leaves out. -/
def collapsedRoots (slots : Slots) : List SideDef × List SideDef :=
  let tails := slots.defs.map (·.tail)
  slots.defs.partition fun d => !isCollapsed tails d

def pairFile (env : PairingEnv) (order : HashOrder) (inputs : PairInputs) : FilePairing :=
  let s : PairingState :=
    { old := collectSideDefs env inputs.base
      new := collectSideDefs env inputs.current
      fileMoved := inputs.fileMoved }
  let (s, renames) := pairSignaturesAndNames order 0 (pairExactTails s)
  let s := propagateContainerRenames order s.old.length 1 s renames
  { changes := s.changes
    unpairedOld := (collapsedRoots s.old).1
    unpairedNew := (collapsedRoots s.new).1
    matched := s.matched
    collapsedOld := (collapsedRoots s.old).2
    collapsedNew := (collapsedRoots s.new).2 }

/-! ## All files -/

def containerMoveKey (d : SideDef) : Option (String × Bytes × ℕ) :=
  if d.hasBody then some (d.side.kind, d.baseName, d.fullHash) else none

def containerMove (old new : SideDef) : SymbolChange :=
  pairedChange .moved { fileMoved := old.side.filePath ≠ new.side.filePath } old new

def unpairedChange (kind : SemanticKind) (d : SideDef) : SymbolChange :=
  match kind with
  | .removed => ⟨kind, .certain, {}, some d.side, none⟩
  | _ => ⟨kind, .certain, {}, none, some d.side⟩

/-- Path, line and name of a change. A side without a position comes last. -/
def changeOrder (change : SymbolChange) : MemoryPath ×ₗ ℕ ×ₗ String :=
  match change.new.or change.old with
  | some side => toLex (side.filePath, toLex ((side.lineRange.map (·.1)).getD (2 ^ 32 - 1), side.name))
  | none => toLex ([], toLex (0, ""))

def sortChanges (changes : List SymbolChange) : List SymbolChange :=
  StableSort.stableSort changeOrder changes

def finishFiles (pairings : List FilePairing) : List SymbolChange :=
  let oldPool := pairings.flatMap (·.unpairedOld)
  let newPool := pairings.flatMap (·.unpairedNew)
  let r := pairGroups order 0 containerMoveKey (fun _ _ => true) (oldPool.map some)
    (newPool.map some)
  sortChanges (pairings.flatMap (·.changes) ++ r.pairs.map (fun p => containerMove p.1 p.2) ++
    r.old.defs.map (unpairedChange .removed) ++ r.new.defs.map (unpairedChange .added))

/-- The hash orders of a run : one for each file, and one for the files together. -/
structure RunOrder where
  file : ℕ → HashOrder
  files : HashOrder

/-- The changes of a list of files. -/
def semanticChanges (env : PairingEnv) (order : RunOrder) (files : List PairInputs) :
    List SymbolChange :=
  finishFiles order.files (files.mapIdx fun i inputs => pairFile env (order.file i) inputs)

end CodeMoniker
