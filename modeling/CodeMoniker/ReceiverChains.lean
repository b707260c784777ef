import CodeMoniker.PythonBindings

/-!
# Receiver chains

A call on the result of another call is decided by what that call is decided as. The calls whose
decision is pending are tried in rounds (`chainRound`) : each is decided by the status of its
receiver, the decisions are put in, and so are the statuses they bring for the next round. The rounds
end with the first that decides nothing.

A method of a known type is looked up in the type and in its supertypes (`methodThroughSupers`).
`none` stands for a panic throughout : of the moniker builder, or on a position past the end.
-/

namespace CodeMoniker

open ByteCodec FuelLoops

/-! ## Decisions -/

/-- The reference of a decision that a refinement may still replace. -/
def EvidencedDecision.refinementPendingReferenceIdx (d : EvidencedDecision) : Option ℕ :=
  match d.outcome with
  | .candidate .weakNameMatch _ | .unknown .noCandidate
  | .unknown .incompleteExtractorMetadata => some d.referenceIdx
  | _ => none

def ReferenceOutcome.linkageTargets : ReferenceOutcome → Option SymbolSet
  | .unique x | .candidate _ x => some x.targets
  | .dynamic _ candidates => some candidates
  | .external _ _ | .blocked _ | .unknown _ => none

def SymbolSet.single (s : SymbolSet) : Option SymbolOrdinal :=
  match s.elems with
  | [symbol] => some symbol
  | _ => none

def WorkspacePackageIndex.isForeignMoniker (p : WorkspacePackageIndex) (target : Moniker) : Bool :=
  (packageKey target).any (· ∉ p.packages)

/-! ## Calls -/

structure MethodCallReference where
  referenceIdx : ℕ
  reference : IndexedReference
  callName : String

namespace MethodCallReference

def new (referenceIdx : ℕ) (r : IndexedReference) : Option MethodCallReference :=
  if r.kind ≠ "method_call" ∧ r.kind ≠ "calls" then none
  else r.callName.map (⟨referenceIdx, r, ·⟩)

variable (call : MethodCallReference)

def callArity : Option ℕ := call.reference.callArity

def decisionWith (outcome : ReferenceOutcome) : EvidencedDecision :=
  ⟨call.reference.id, call.referenceIdx, outcome⟩

def externalDecisionWithOrigin (origin : ExternalReferenceOrigin)
    (target : Moniker) : EvidencedDecision :=
  call.decisionWith (.external origin (some target))

def resolvedDecision (scope : ResolutionScope) (targets : SymbolSet) :
    EvidencedDecision :=
  call.decisionWith (.resolved ⟨scope, .typeConstraint, targets⟩)

end MethodCallReference

def MethodTable.resolveByName (t : MethodTable) (owner : Moniker) (callName : String) :
    Option ℕ → Option SymbolSet
  | some arity => do
    let [target] ← t.byOwnerNameArity.lookup (owner, byteString callName, arity) | none
    return OrdSet.ofList [target]
  | none => do
    let [target] ← t.byOwnerName.lookup (owner, byteString callName) | none
    return OrdSet.ofList [target]

/-- The name of a method with its parameter slots. -/
def methodSegment (callName : String) (callArity : Option ℕ) : Bytes :=
  byteString callName ++ byteString "(" ++
    (byteString ",").intercalate (List.replicate (callArity.getD 0) (byteString "_")) ++
    byteString ")"

def methodTarget (owner : Moniker) (callName : String) (callArity : Option ℕ) : Option Moniker :=
  (MonikerBuilder.mk owner.project (owner.segments ++
    [⟨byteString "method", methodSegment callName callArity⟩])).tryMoniker.toOption

def callableOwner (target : Moniker) : Option Moniker :=
  match target.segments.getLast? with
  | none => some target
  | some last =>
    if last.kind = byteString "method" ∨ last.kind = byteString "constructor" then target.parent
    else some target

def externalTargetShape (target : Moniker) : Bool :=
  target.segments.head?.any fun s => s.kind = byteString "external_pkg" ∨ s.kind = byteString "sdk"

/-! ## Refiner and tables -/

inductive LinkPermission where
  | allowed
  | blocked
  deriving DecidableEq, Repr

/-- The source group of each file and what the manifests declare are left open. -/
structure LinkageRefiner where
  material : CodeIndexMaterial
  methods : MethodTable
  candidates : CandidateCatalog
  packages : WorkspacePackageIndex
  sourceGroup : ℕ → Option ℕ
  manifestDeclaresTarget : MethodCallReference → Moniker → Bool

/-- The tables that the lookup of a method reads. -/
structure ReceiverFieldTables where
  supers : AList fun _ : Moniker => List Moniker
  typeAliases : AList fun _ : Moniker => Moniker
  invariantExternalOrigins : AList fun _ : Moniker => ExternalReferenceOrigin

/-- Types in the order of their first insertion. -/
structure MonikerTypeSet where
  types : List Moniker
  isOpen : Bool

def MonikerTypeSet.insert (s : MonikerTypeSet) (target : Moniker) : MonikerTypeSet :=
  if target ∈ s.types then s else { s with types := s.types ++ [target] }

namespace LinkageRefiner

variable (l : LinkageRefiner) (tables : ReceiverFieldTables)

def groupOf (fileIdx : ℕ) : Option (ℕ × ℕ) := do
  let file ← l.material.files[fileIdx]?
  return (file.sourceRoot, ← l.sourceGroup fileIdx)

def linkPermission (sourceFile targetFile : ℕ) : Option LinkPermission :=
  match l.groupOf sourceFile, l.groupOf targetFile with
  | none, none => none
  | source, target => some (if source = target then .allowed else .blocked)

def resolvedMethodTargets (owner : Moniker) (callName : String) (callArity : Option ℕ) :
    Option (Option SymbolSet) :=
  (methodTarget owner callName callArity).map fun target =>
    match l.candidates.indexes.symbolByMoniker target with
    | some symbol => some (OrdSet.ofList [symbol])
    | none => l.methods.resolveByName owner callName callArity

def externalOrigin (target : Moniker) (call : MethodCallReference) : ExternalReferenceOrigin :=
  match (selfAndAncestors target).findSome? (tables.invariantExternalOrigins.lookup ·) with
  | some origin => origin
  | none =>
    if target.segments.head?.any (·.kind = byteString "sdk") then .sdk
    else if l.packages.isForeignMoniker target then .dependency
    else if l.manifestDeclaresTarget call target then .dependency
    else .unknownExternal

def declaredGroupsPermitDecision (d : EvidencedDecision) : Option Bool :=
  match d.outcome.linkageTargets, (referenceLocations l.material)[d.referenceIdx]? with
  | some targets, some location =>
    targets.elems.allM fun symbol => (l.candidates.candidate symbol).map fun candidate =>
      candidate.all fun candidate =>
        l.linkPermission location.1 candidate.sourceFile ≠ some .blocked
  | _, _ => some true

/-- The walk of `resolve_method_through_supers`, where the types on the stack remain. -/
def methodThroughSupers (call : MethodCallReference) (seen : Finset Moniker) :
    List Moniker → Option (Option EvidencedDecision)
  | [] => some none
  | current :: stack =>
    if _h : 32 < seen.card ∨ current ∈ seen then methodThroughSupers call seen stack
    else do
      match ← l.resolvedMethodTargets current call.callName call.callArity with
      | some targets =>
        let decision := call.resolvedDecision .global targets
        return if ← l.declaredGroupsPermitDecision decision then some decision else none
      | none =>
        if externalTargetShape current || l.packages.isForeignMoniker current then
          let target ← methodTarget current call.callName call.callArity
          return some (call.externalDecisionWithOrigin (l.externalOrigin tables current call) target)
        else
          let parents := ((tables.supers.lookup current).getD []).map fun parent =>
            (tables.typeAliases.lookup parent).getD parent
          methodThroughSupers call (insert current seen) (parents.reverse ++ stack)
termination_by stack => (33 - seen.card, stack.length)
decreasing_by
  · simp
    omega
  · have hcard := Finset.card_insert_of_notMem fun hmem => _h (Or.inr hmem)
    simp only [not_or] at _h
    exact Prod.Lex.left _ _ (by omega)

def resolveMethodThroughSupers (owner : Moniker) (call : MethodCallReference) :
    Option (Option EvidencedDecision) :=
  l.methodThroughSupers tables call ∅ [owner]

def typedReceiverDecision (ty : Moniker) (call : MethodCallReference) :
    Option (Option EvidencedDecision) :=
  match callableOwner ((tables.typeAliases.lookup ty).getD ty) with
  | none => some none
  | some owner => l.resolveMethodThroughSupers tables owner call

/-! ### Sets of types -/

end LinkageRefiner

/-- What the types of a receiver amount to. -/
structure TypesDecision where
  targets : SymbolSet
  externalTarget : Option (ExternalReferenceOrigin × Moniker)
  isOpen : Bool

/-- One turn of the loop over the types. -/
def TypesDecision.add (x : TypesDecision) : Option EvidencedDecision → TypesDecision
  | none => { x with isOpen := true }
  | some d =>
    match d.outcome with
    | .unique resolution | .candidate _ resolution =>
      { x with targets := x.targets ∪ resolution.targets }
    | .external origin target =>
      let external := target.map (origin, ·)
      { x with
        isOpen := x.isOpen || (x.externalTarget.isSome && x.externalTarget ≠ external)
        externalTarget := external }
    | .dynamic _ candidates => { x with targets := x.targets ∪ candidates, isOpen := true }
    | .blocked _ | .unknown _ => { x with isOpen := true }

def TypesDecision.outcome (x : TypesDecision) : Option ReferenceOutcome :=
  if x.isOpen ∨ x.targets.card ≠ 0 ∧ x.externalTarget.isSome then
    some (.dynamic .duckTypedCandidateSet x.targets)
  else if x.targets.card ≠ 0 then
    let resolution := ⟨.global, .typeConstraint, x.targets⟩
    some (if x.targets.card = 1 then .resolved resolution
      else .candidate .multipleTargets resolution)
  else x.externalTarget.map fun external => .external external.1 (some external.2)

namespace LinkageRefiner

variable (l : LinkageRefiner) (tables : ReceiverFieldTables)

def typedReceiverTypesDecision (types : MonikerTypeSet) (call : MethodCallReference) :
    Option (Option EvidencedDecision) := do
  let x ← types.types.foldlM (fun (x : TypesDecision) ty =>
    (l.typedReceiverDecision tables ty call).map x.add) ⟨∅, none, types.isOpen⟩
  return x.outcome.map call.decisionWith

end LinkageRefiner

/-! ## Receivers -/

namespace IndexedSourceFile

def isCallRef (r : RefRecord) : Bool :=
  r.kind = byteString "calls" ∨ r.kind = byteString "instantiates" ∨
    r.kind = byteString "method_call"

def containsPosition (outer inner : Position) : Bool :=
  outer.1 ≤ inner.1 ∧ inner.2 ≤ outer.2 ∧ outer ≠ inner

structure CallSpan where
  refIdx : ℕ
  position : Position

def CallSpan.width (span : CallSpan) : ℕ := span.position.2.toNat - span.position.1.toNat

variable (file : IndexedSourceFile)

/-- The calls of one source, the widest first. A source past the definitions has none. -/
def sortedCallSpans (source : ℕ) : List CallSpan :=
  if source < file.graph.defCount then
    (file.graph.refs.zipIdx.filterMap fun r =>
      if isCallRef r.1 ∧ r.1.source = source then r.1.position.map (⟨r.2, ·⟩)
      else none).insertionSort fun a b => b.width ≤ a.width
  else []

def immediateReceiverCallIdx (refIdx : ℕ) (current : RefRecord) :
    Option ℕ := do
  let position ← current.position
  let span ← (file.sortedCallSpans current.source).find? fun span =>
    span.refIdx ≠ refIdx && containsPosition position span.position
  return span.refIdx

def immediateReceiverReadIdx (refIdx : ℕ) (current : RefRecord) :
    Option ℕ := do
  let position ← current.position
  if current.receiverHint = [] then none
  else
    let found ← file.graph.refs.zipIdx.find? fun r =>
      r.2 ≠ refIdx && r.1.source = current.source && r.1.kind = byteString "reads" &&
        r.1.position.any (containsPosition position) &&
        r.1.target.segments.getLast?.any (·.name = current.receiverHint)
    return found.2

end IndexedSourceFile

inductive ReferenceStatus where
  | resolved (symbol : SymbolOrdinal)
  | external (origin : ExternalReferenceOrigin) (target : Moniker)
  deriving DecidableEq

structure ChainContext where
  statuses : AList fun _ : ℕ => ReferenceStatus
  receiverCalls : AList fun _ : ℕ => ℕ
  returnTypes : AList fun _ : Moniker => MonikerTypeSet

namespace LinkageRefiner

variable (l : LinkageRefiner) (tables : ReceiverFieldTables)

/-- The reference that a call is made on. -/
def receiverReferenceIdx (referenceIdx : ℕ) : Option (Option ℕ) :=
  match (referenceLocations l.material)[referenceIdx]? with
  | none => some none
  | some location =>
    match l.material.files[location.1]? with
    | none => some none
    | some file => do
      let current ← file.graph.refs[location.2]?
      if current.source < file.graph.defCount then
        return do
          let receiver ← (file.immediateReceiverCallIdx location.2 current).or
            (file.immediateReceiverReadIdx location.2 current)
          (referenceLocations l.material).idxOf? (location.1, receiver)
      else return none

variable (decisions : List EvidencedDecision)

/-- The call at a position with its receiver, where the decision is pending. -/
def receiverCall (i : ℕ) : Option (Option (ℕ × ℕ)) := do
  let d ← decisions[i]?
  match d.refinementPendingReferenceIdx with
  | none => return none
  | some referenceIdx => return (← l.receiverReferenceIdx referenceIdx).map (referenceIdx, ·)

/-- The source groups the calls by file, and goes through the references of a file once. -/
def buildReceiverCallIndex (pending : List ℕ) :
    Option (AList fun _ : ℕ => ℕ) :=
  (pending.mapM (l.receiverCall decisions)).map fun calls =>
    calls.reduceOption.foldl (fun index call => index.insert call.1 call.2) ∅

/-! ## Statuses and return types -/

def referenceStatus (references : List IndexedReference) (d : EvidencedDecision) :
    Option (Option ReferenceStatus) :=
  match d.outcome with
  | .unique x => some (x.targets.single.map .resolved)
  | .external origin (some target) => some (some (.external origin target))
  | .external origin none =>
    (references[d.referenceIdx]?).map fun r => (l.material.referenceTarget r.id).map (.external origin)
  | _ => some none

def insertStatus (statuses : AList fun _ : ℕ => ReferenceStatus) (referenceIdx : ℕ) :
    Option ReferenceStatus → AList fun _ : ℕ => ReferenceStatus
  | none => statuses
  | some status => statuses.insert referenceIdx status

def referenceStatuses (references : List IndexedReference)
    (wanted : List ℕ) : Option (AList fun _ : ℕ => ReferenceStatus) :=
  decisions.foldlM (fun statuses d =>
    if d.referenceIdx ∈ wanted then
      (l.referenceStatus references d).map (insertStatus statuses d.referenceIdx)
    else some statuses) ∅

def decisionTarget (d : EvidencedDecision) (r : IndexedReference) : Option (Option Moniker) :=
  match d.outcome with
  | .unique x =>
    match x.targets.single with
    | none => some none
    | some symbol => (l.candidates.candidate symbol).map (·.map (·.moniker))
  | .external _ target => some (target.or (l.material.referenceTarget r.id))
  | _ => some none

/-- One turn of `collect_return_types`. -/
def collectReturnType (references : List IndexedReference)
    (out : AList fun _ : Moniker => MonikerTypeSet) (d : EvidencedDecision) :
    Option (AList fun _ : Moniker => MonikerTypeSet) := do
  let r ← references[d.referenceIdx]?
  if r.kind ≠ "returns_type" then return out
  else
    match ← l.material.symbolMoniker r.sourceSymbol with
    | none => return out
    | some source =>
      match ← l.decisionTarget d r with
      | none => return out
      | some target =>
        let types := ((out.lookup source).getD ⟨[], false⟩).insert target
        return out.insert source
          (if r.receiver = some "python_open_type_set" then { types with isOpen := true } else types)

def collectReturnTypes (references : List IndexedReference) :
    Option (AList fun _ : Moniker => MonikerTypeSet) :=
  decisions.foldlM (l.collectReturnType references) ∅

def chainContext (references : List IndexedReference)
    (pending : List ℕ) : Option ChainContext := do
  let receiverCalls ← l.buildReceiverCallIndex decisions pending
  let statuses ← l.referenceStatuses decisions references (receiverCalls.entries.map (·.2))
  return ⟨statuses, receiverCalls, ← l.collectReturnTypes decisions references⟩

/-! ## Rounds -/

/-- What the status of its receiver makes of a call. -/
def decideByStatus (returnTypes : AList fun _ : Moniker => MonikerTypeSet)
    (call : MethodCallReference) : ReferenceStatus → Option (Option EvidencedDecision)
  | .resolved symbol => do
    match ← l.candidates.candidate symbol with
    | none => return none
    | some callable =>
      if callable.moniker.segments.getLast?.any (·.kind = byteString "class") then
        l.typedReceiverDecision tables callable.moniker call
      else
        match returnTypes.lookup callable.moniker with
        | none => return none
        | some types => l.typedReceiverTypesDecision tables types call
  | .external origin target =>
    match callableOwner target with
    | none => some none
    | some owner =>
      (methodTarget owner call.callName call.callArity).map fun target =>
        some (call.externalDecisionWithOrigin origin target)

def resolveReceiverChain (context : ChainContext) (referenceIdx : ℕ) (r : IndexedReference) :
    Option (Option EvidencedDecision) :=
  match MethodCallReference.new referenceIdx r,
      (context.receiverCalls.lookup referenceIdx).bind context.statuses.lookup with
  | some call, some status => l.decideByStatus tables context.returnTypes call status
  | _, _ => some none

structure ChainState where
  decisions : List EvidencedDecision
  statuses : AList fun _ : ℕ => ReferenceStatus
  pending : List ℕ

variable (references : List IndexedReference) (context : ChainContext)

/-- What a round makes of the decision at a position. -/
def replacement (s : ChainState) (i : ℕ) : Option (Option (ℕ × EvidencedDecision)) := do
  let d ← s.decisions[i]?
  match d.refinementPendingReferenceIdx with
  | none => return none
  | some referenceIdx =>
    let r ← references[referenceIdx]?
    let found ← l.resolveReceiverChain tables { context with statuses := s.statuses } referenceIdx r
    return found.map (i, ·)

def replace (s : ChainState) (x : ℕ × EvidencedDecision) : Option ChainState :=
  (l.referenceStatus references x.2).map fun status =>
    { s with
      decisions := s.decisions.set x.1 x.2
      statuses := insertStatus s.statuses x.2.referenceIdx status }

def stillPending (decisions : List EvidencedDecision) (i : ℕ) : Bool :=
  (decisions[i]?.bind (·.refinementPendingReferenceIdx)).isSome

/-- One pass of the loop. The inner `none` is the pass that breaks it. -/
def chainRound (s : ChainState) : Option (Option ChainState) := do
  let found ← s.pending.mapM (l.replacement tables references context s)
  let replacements := found.reduceOption
  if replacements = [] then return none
  else
    let next ← replacements.foldlM (l.replace references) s
    return some { next with pending := s.pending.filter (stillPending next.decisions) }

def chainLoop : ℕ → ChainState → Run (List EvidencedDecision)
  | 0, _ => .running
  | fuel + 1, s =>
    match l.chainRound tables references context s with
    | none => .panic
    | some none => .done s.decisions
    | some (some next) => chainLoop fuel next

def refineReceiverChains (decisions : List EvidencedDecision) (pending : List ℕ) (fuel : ℕ) :
    Run (List EvidencedDecision) :=
  if pending = [] then .done decisions
  else
    match l.chainContext decisions references pending with
    | none => .panic
    | some context =>
      l.chainLoop tables references context fuel ⟨decisions, context.statuses, pending⟩

end LinkageRefiner

end CodeMoniker
