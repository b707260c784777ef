import CodeMoniker.LinkageRestore
import CodeMoniker.PassLoops

/-!
# Bindings of Python modules

What a name of a Python module is bound to. Definitions and decided imports are bound at once,
undecided ones wait for the binding of their target (`PendingBinding`), and wildcard imports take
over what their target exports. Bindings of one name are merged (`BindingTarget.merge`).

`build` records the decisions first, then runs two loops in one another until neither wildcards nor
pending bindings change anything (`propagateBindings`).
-/

namespace CodeMoniker

namespace Python

open ByteCodec FuelLoops

/-! ## Targets -/

inductive BindingTarget where
  | workspace (scope : ResolutionScope) (evidence : ResolutionEvidence) (targets : SymbolSet)
      (candidateReason : Option CandidateReason)
  | external (origin : ExternalReferenceOrigin) (target : Moniker)
  | dynamic (candidates : SymbolSet)
  deriving DecidableEq

namespace BindingTarget

def intoDynamic : BindingTarget → BindingTarget
  | workspace _ _ targets _ | dynamic targets => dynamic targets
  | external _ _ => dynamic ∅

def workspaceCandidates : BindingTarget → SymbolSet
  | workspace _ _ targets _ => targets
  | dynamic candidates => candidates
  | external _ _ => ∅

def fromWorkspaceResolution (resolution : ResolutionDecision) (reason : Option CandidateReason) :
    BindingTarget :=
  workspace resolution.scope resolution.evidence resolution.targets reason

def fromDecision (decision : ReferenceOutcome) (fallbackExternalTarget : Option Moniker) :
    Option BindingTarget :=
  match decision with
  | .unique resolution => some (fromWorkspaceResolution resolution none)
  | .candidate reason resolution => some (fromWorkspaceResolution resolution (some reason))
  | .external origin target => (target.or fallbackExternalTarget).map (external origin)
  | .dynamic _ candidates => some (dynamic candidates)
  | .blocked _ | .unknown _ => none

def merge : BindingTarget → BindingTarget → BindingTarget
  | workspace scope evidence targets reason, workspace otherScope otherEvidence otherTargets
      otherReason =>
    let merged := targets ∪ otherTargets
    workspace (if scope = otherScope then scope else .global)
      (if evidence = otherEvidence then evidence else .globalBinding) merged
      ((reason.or otherReason).or (if 1 < merged.card then some .multipleTargets else none))
  | external origin target, external _ other =>
    if target = other then external origin target else dynamic ∅
  | dynamic candidates, workspace _ _ targets _ => dynamic (candidates ∪ targets)
  | workspace _ _ targets _, dynamic candidates => dynamic (targets ∪ candidates)
  | dynamic candidates, dynamic other => dynamic (candidates ∪ other)
  | workspace _ _ targets _, external _ _ => dynamic targets
  | external _ _, workspace _ _ targets _ => dynamic targets
  | dynamic candidates, external _ _ => dynamic candidates
  | external _ _, dynamic candidates => dynamic candidates

end BindingTarget

/-! ## Bindings -/

inductive ExportPolicy where
  | static (names : Finset Bytes)
  | dynamic

structure WildcardImport where
  owner : Moniker
  target : Moniker
  external : Option ExternalReferenceOrigin

structure PendingBinding where
  owners : List Moniker
  name : Bytes
  targetOwner : Moniker
  targetName : Bytes
  conditional : Bool

end Python

open ByteCodec FuelLoops Python

structure PythonBindings where
  aliases : AList fun _ : Moniker => AList fun _ : Bytes => BindingTarget
  exportPolicies : AList fun _ : Moniker => ExportPolicy
  wildcardImports : List WildcardImport
  dynamicWildcardOwners : Finset Moniker

namespace PythonBindings

variable (b : PythonBindings)

def aliasOf (owner : Moniker) (name : Bytes) : Option BindingTarget :=
  (b.aliases.lookup owner).bind (·.lookup name)

/-- The second component says whether the alias is new or has changed. -/
def mergeAlias (owner : Moniker) (name : Bytes) (target : BindingTarget) :
    PythonBindings × Bool :=
  let aliases := (b.aliases.lookup owner).getD ∅
  match aliases.lookup name with
  | none => ({ b with aliases := b.aliases.insert owner (aliases.insert name target) }, true)
  | some existing =>
    let merged := existing.merge target
    ({ b with aliases := b.aliases.insert owner (aliases.insert name merged) },
      decide (merged ≠ existing))

/-- Whether a wildcard import of `owner` takes a name, as long as the policy is not dynamic. -/
def exportsName (owner : Moniker) (name : Bytes) : Bool :=
  match b.exportPolicies.lookup owner with
  | none => !(byteString "_").isPrefixOf name
  | some (.static names) => name ∈ names
  | some .dynamic => false

def exportedAliases (owner : Moniker) : List (Bytes × BindingTarget) :=
  (((b.aliases.lookup owner).getD ∅).entries.filter fun e => b.exportsName owner e.1).map
    fun e => (e.1, e.2)

/-- The target of a wildcard import is dynamic : what it exports is not known. -/
def isDynamic (target : Moniker) : Bool :=
  (match b.exportPolicies.lookup target with
    | some .dynamic => true
    | _ => false) || decide (target ∈ b.dynamicWildcardOwners)

/-- One turn of the loop of `propagate_wildcards`. -/
def propagateWildcard (wildcard : WildcardImport) : PythonBindings × Bool :=
  if wildcard.external.isSome then (b, false)
  else if b.isDynamic wildcard.target then
    ({ b with dynamicWildcardOwners := insert wildcard.owner b.dynamicWildcardOwners },
      decide (wildcard.owner ∉ b.dynamicWildcardOwners))
  else
    sweep (fun b e => b.mergeAlias wildcard.owner e.1 e.2) b (b.exportedAliases wildcard.target)

def propagateWildcards : ℕ → PythonBindings → Run PythonBindings :=
  untilStable fun _ b => .done (sweep propagateWildcard b b.wildcardImports)

/-- What a pending binding binds its name to, once its target is bound. -/
def pendingTarget (pending : PendingBinding) : Option BindingTarget :=
  (b.aliasOf pending.targetOwner pending.targetName).map fun target =>
    if pending.conditional then target.intoDynamic else target

/-- One turn of the loop of `propagate_bindings` over the pending bindings. -/
def propagatePending (pending : PendingBinding) : PythonBindings × Bool :=
  match b.pendingTarget pending with
  | none => (b, false)
  | some target => sweep (fun b owner => b.mergeAlias owner pending.name target) b pending.owners

/-- One round of the outer loop. -/
def propagateRound (pendingBindings : List PendingBinding) (fuel : ℕ) (b : PythonBindings) :
    Run (PythonBindings × Bool) :=
  match propagateWildcards fuel b with
  | .done stable => .done (sweep propagatePending stable pendingBindings)
  | .panic => .panic
  | .running => .running

def propagateBindings (pendingBindings : List PendingBinding) : ℕ → PythonBindings →
    Run PythonBindings :=
  untilStable (propagateRound pendingBindings)

end PythonBindings

/-! ## Recording the decisions -/

namespace Python

variable (owner : Moniker)

def isPythonModule : Bool :=
  (owner.segments.head?.any fun s => s.kind = byteString "lang" ∧ s.name = byteString "python") &&
    owner.segments.getLast?.any (·.kind = byteString "module")

/-- A package is also known by the name of its directory. -/
def collapsedInitOwner : Option Moniker :=
  match owner.segments, owner.segments.reverse with
  | first :: _ :: _ :: _, module :: package :: _ =>
    if first.kind ≠ byteString "lang" ∨ first.name ≠ byteString "python" ∨
        module.kind ≠ byteString "module" ∨ module.name ≠ byteString "__init__" ∨
        package.kind ≠ byteString "package" then none
    else do
      let beforePackage ← (← owner.parent).parent
      (MonikerBuilder.mk beforePackage.project
        (beforePackage.segments ++ [⟨byteString "module", package.name⟩])).tryMoniker.toOption
  | _, _ => none

def foldedSegments (lang : Segment) : List Segment → List Segment
  | [] => [lang]
  | [package] => [lang, ⟨byteString "module", package.name⟩]
  | first :: second :: packages =>
    [lang, ⟨byteString "package", first.name⟩, ⟨byteString "module", second.name⟩] ++
      packages.map fun package => ⟨byteString "path", package.name⟩

/-- The module that an import of a package by its path names. -/
def foldedInitImportOwner : Option Moniker :=
  match owner.segments with
  | lang :: rest =>
    match rest.getLast? with
    | none => none
    | some module =>
      let packages := rest.dropLast
      if lang.kind ≠ byteString "lang" ∨ lang.name ≠ byteString "python" ∨ packages = [] ∨
          (∃ package ∈ packages, package.kind ≠ byteString "package") ∨
          module.kind ≠ byteString "module" ∨ module.name ≠ byteString "__init__" then none
      else (MonikerBuilder.mk owner.project (foldedSegments lang packages)).tryMoniker.toOption
  | [] => none

def bindingOwners : List Moniker :=
  ((collapsedInitOwner owner).toList ++ (foldedInitImportOwner owner).toList).foldl
    (fun owners alternate => if alternate ∈ owners then owners else owners ++ [alternate]) [owner]

end Python

variable (m : CodeIndexMaterial)

/-- `CodeIndexMaterial::reference_target`. -/
def CodeIndexMaterial.referenceTarget (id : ReferenceId) :
    Option Moniker := do
  let file ← m.files[id.file]?
  let record ← file.graph.refs[id.reference]?
  return record.target

namespace Python

/-- The name that an import binds. -/
def bindingName (r : IndexedReference) : Option Bytes :=
  match r.aliasName.filter (· ≠ "") with
  | some aliasName => some (byteString aliasName)
  | none => do
    let target ← m.referenceTarget r.id
    if r.kind = "imports_module" then
      let first ← target.segments.head?
      let binding ←
        if first.kind = byteString "lang" ∨ first.kind = byteString "sdk" then target.segments[1]?
        else some first
      return bareCallableName binding.name
    else
      let last ← target.segments.getLast?
      if last.kind = byteString "path" then some (bareCallableName last.name) else none

def targetKey (r : IndexedReference) : Option (Moniker × Bytes) := do
  let target ← m.referenceTarget r.id
  let name ← (target.segments.getLast?.map fun s => bareCallableName s.name).or
    (r.callName.map byteString)
  return (← target.parent, name)

end Python

namespace PythonBindings

def empty : PythonBindings := ⟨∅, ∅, [], ∅⟩

def mergeOwners (b : PythonBindings) (owners : List Moniker) (name : Bytes)
    (target : BindingTarget) : PythonBindings :=
  owners.foldl (fun b owner => (b.mergeAlias owner name target).1) b

/-- A definition directly in a module is bound to its candidate. -/
def seedDef (c : CandidateCatalog) (fileIdx : ℕ) (b : PythonBindings) (d : DefRecord × ℕ) :
    PythonBindings :=
  match d.1.moniker.parent.filter isPythonModule, d.1.moniker.segments.getLast?,
      c.symbolAt fileIdx d.2 with
  | some owner, some segment, some symbol =>
    b.mergeOwners (bindingOwners owner) (bareCallableName segment.name)
      (.workspace .global .exactBinding (OrdSet.ofList [symbol]) none)
  | _, _, _ => b

def seedModuleDefinitions (c : CandidateCatalog) (b : PythonBindings) :
    PythonBindings :=
  m.files.zipIdx.foldl (fun b file =>
    if file.1.lang = .python then file.1.graph.defs.zipIdx.foldl (seedDef c file.2) b else b) b

def setPolicy (b : PythonBindings) (policy : ExportPolicy) (owner : Moniker) : PythonBindings :=
  { b with exportPolicies := b.exportPolicies.insert owner policy }

/-- `or_insert` : a policy that is there stays. -/
def orSetPolicy (b : PythonBindings) (policy : ExportPolicy) (owner : Moniker) : PythonBindings :=
  if (b.exportPolicies.lookup owner).isSome then b else b.setPolicy policy owner

def exportName (name : Bytes) (b : PythonBindings) (owner : Moniker) : PythonBindings :=
  match (b.exportPolicies.lookup owner).getD (.static ∅) with
  | .static names => b.setPolicy (.static (insert name names)) owner
  | .dynamic => b

/-- What the decision on an import binds, or leaves pending. -/
def recordBinding (d : EvidencedDecision) (r : IndexedReference)
    (owners : List Moniker) (name : Bytes) (b : PythonBindings)
    (pendingBindings : List PendingBinding) : PythonBindings × List PendingBinding :=
  match BindingTarget.fromDecision d.outcome (m.referenceTarget r.id) with
  | some target =>
    (b.mergeOwners owners name
      (if r.receiver = some "python_conditional_import" then target.intoDynamic else target),
      pendingBindings)
  | none =>
    match targetKey m r with
    | some (targetOwner, targetName) => (b, pendingBindings ++
        [⟨owners, name, targetOwner, targetName, r.receiver = some "python_conditional_import"⟩])
    | none => (b, pendingBindings)

def recordWildcard (d : EvidencedDecision) (r : IndexedReference)
    (owners : List Moniker) (b : PythonBindings) : PythonBindings :=
  if r.receiver = some "python_conditional_import" then
    { b with dynamicWildcardOwners := b.dynamicWildcardOwners ∪ owners.toFinset }
  else
    match m.referenceTarget r.id with
    | none => b
    | some target =>
      let external :=
        match d.outcome with
        | .external origin _ => some origin
        | _ => none
      { b with
        wildcardImports := b.wildcardImports ++ owners.map fun owner => ⟨owner, target, external⟩ }

/-- The statements about `__all__` that name no alias. -/
def recordAll (r : IndexedReference) (owners : List Moniker) (b : PythonBindings) :
    Option PythonBindings :=
  match r.receiver with
  | some "python_all_replace" => some (owners.foldl (setPolicy · (.static ∅)) b)
  | some "python_all_extend" => some (owners.foldl (orSetPolicy · .dynamic) b)
  | some "python_all_dynamic" => some (owners.foldl (setPolicy · .dynamic) b)
  | _ => none

def recordDecision (d : EvidencedDecision) (r : IndexedReference)
    (s : PythonBindings × List PendingBinding) : PythonBindings × List PendingBinding :=
  match (m.symbolMoniker r.sourceSymbol).join with
  | none => s
  | some rawOwner =>
    let isReexport := r.kind = "reexports"
    let pythonModule := isPythonModule rawOwner
    if ¬isReexport ∧ pythonModule = false then s
    else
      let owners := if pythonModule then bindingOwners rawOwner else [rawOwner]
      let unnamed := isReexport ∧ r.aliasName.filter (· ≠ "") = none
      match if unnamed then recordAll r owners s.1 else none with
      | some b => (b, s.2)
      | none =>
        if pythonModule ∧ r.kind = "imports_module" ∧ r.aliasName = some "*" then
          (recordWildcard m d r owners s.1, s.2)
        else if ¬isReexport ∧ r.kind ≠ "imports_symbol" ∧ r.kind ≠ "imports_module" then s
        else
          match bindingName m r with
          | none => s
          | some name =>
            let exported := if isReexport then owners.foldl (exportName name) s.1 else s.1
            recordBinding m d r owners name exported s.2

/-- The decisions at some positions. `none` is the panic on a position past the end. -/
def recordDecisions (decisions : List EvidencedDecision)
    (references : List IndexedReference) (decisionIndices : List ℕ)
    (s : PythonBindings × List PendingBinding) :
    Option (PythonBindings × List PendingBinding) :=
  decisionIndices.foldlM (fun s i => do
    let d ← decisions[i]?
    let r ← references[d.referenceIdx]?
    return recordDecision m d r s) s

def build (c : CandidateCatalog) (decisions : List EvidencedDecision)
    (references : List IndexedReference) (decisionIndices : List ℕ) (fuel : ℕ) :
    Run PythonBindings :=
  match recordDecisions m decisions references decisionIndices
      (empty.seedModuleDefinitions m c, []) with
  | none => .panic
  | some (b, pendingBindings) => propagateBindings pendingBindings fuel b

end PythonBindings

end CodeMoniker
