import CodeMoniker.DecisionRuns
import CodeMoniker.Traversals

/-!
# Decisions restored from a snapshot

A published snapshot lists every reference once, in the list of its class. When no store is at
hand the decisions are read back from it (`decisionsFromSnapshot`), class by class : an edge is
resolved again from its evidence, a candidate from its targets, an external reference from the
URI of its target.

`restore_lossless_iff` says when the restored decisions are published as the snapshot was, up to
the order of each list. What `resolved` builds is, as long as there is one edge for a reference
and a candidate keeps a target that the catalog knows.
-/

namespace CodeMoniker

open List ByteCodec LinkedWorkspace Traversals SymbolOrdinalCatalog
open Option (getD_some map_eq_some_iff map_some)

/-! ## Decisions with their evidence -/

inductive ResolutionEvidence where
  | exactBinding
  | localBinding
  | globalBinding
  | typeConstraint
  | mro
  | injected
  | nameMatch
  deriving DecidableEq, Repr

inductive ResolutionScope where
  | «local»
  | global
  | builtin
  | injected
  | unknown
  deriving DecidableEq, Repr

inductive CandidateScope where
  | «local»
  | global
  | builtin
  | injected
  | unknown
  deriving DecidableEq, Repr

inductive ExternalReferenceOrigin where
  | sdk
  | dependency
  | injected
  | unknownExternal
  deriving DecidableEq, Repr

def ResolutionScope.candidateScope : ResolutionScope → CandidateScope
  | «local» => .local
  | global => .global
  | builtin => .builtin
  | injected => .injected
  | unknown => .unknown

def resolutionScope : CandidateScope → ResolutionScope
  | .local => .local
  | .global => .global
  | .builtin => .builtin
  | .injected => .injected
  | .unknown => .unknown

@[simp] theorem candidateScope_resolutionScope (scope : CandidateScope) :
    (resolutionScope scope).candidateScope = scope := by
  cases scope <;> rfl

def BlockReason.fromUnresolvedReason : UnresolvedReason → Option BlockReason
  | .manifestBlocked => some manifestPolicy
  | .visibility => some visibility
  | .languageBoundary => some languageBoundary
  | _ => none

def UnknownReason.fromUnresolvedReason : UnresolvedReason → Option UnknownReason
  | .missingQuery => some missingQuery
  | .noCandidate => some noCandidate
  | .ambiguous => some ambiguous
  | .unsupportedLanguageRule => some unsupportedLanguageRule
  | .incompleteExtractorMetadata => some incompleteExtractorMetadata
  | .manifestBlocked | .visibility | .languageBoundary => none

@[simp] theorem BlockReason.fromUnresolvedReason_unresolvedReason (reason : BlockReason) :
    fromUnresolvedReason reason.unresolvedReason = some reason := by
  cases reason <;> rfl

@[simp] theorem UnknownReason.fromUnresolvedReason_unresolvedReason (reason : UnknownReason) :
    fromUnresolvedReason reason.unresolvedReason = some reason := by
  cases reason <;> rfl

/-- The reference and its position stand beside the outcome. -/
structure ResolutionDecision where
  scope : ResolutionScope
  evidence : ResolutionEvidence
  targets : SymbolSet

def ResolutionDecision.candidateReason (x : ResolutionDecision) : Option CandidateReason :=
  if x.evidence = .nameMatch then some .weakNameMatch
  else if 1 < x.targets.card then some .multipleTargets
  else none

inductive ReferenceOutcome where
  | unique (resolution : ResolutionDecision)
  | candidate (reason : CandidateReason) (resolution : ResolutionDecision)
  | external (origin : ExternalReferenceOrigin) (target : Option Moniker)
  | blocked (reason : BlockReason)
  | dynamic (reason : DynamicReason) (candidates : SymbolSet)
  | unknown (reason : UnknownReason)

def ReferenceOutcome.resolved (x : ResolutionDecision) : ReferenceOutcome :=
  if x.targets.card = 0 then .unknown .noCandidate
  else
    match x.candidateReason with
    | some reason => .candidate reason x
    | none => .unique x

/-- `ReferenceLinkageDecision`, with all that it carries. -/
structure EvidencedDecision where
  reference : ReferenceId
  referenceIdx : ReferenceOrdinal
  outcome : ReferenceOutcome

/-! ## The snapshot -/

structure EvidencedEdge extends LinkageEdge where
  evidence : ResolutionEvidence
  deriving DecidableEq, Repr

structure ScopedCandidate extends CandidateReference where
  scope : CandidateScope
  evidence : ResolutionEvidence
  deriving DecidableEq, Repr

structure OriginatedExternal extends ExternalReference where
  origin : ExternalReferenceOrigin
  deriving DecidableEq, Repr

/-- An entry of one of the lists. -/
inductive ListedReference where
  | resolved (edge : EvidencedEdge)
  | candidate (entry : ScopedCandidate)
  | external (entry : OriginatedExternal)
  | dynamic (entry : DynamicReference)
  | blocked (entry : UnresolvedReference)
  | unresolved (entry : UnresolvedReference)
  deriving DecidableEq

/-- The lists of a projection. -/
structure LinkageLists where
  resolved : List EvidencedEdge := []
  candidates : List ScopedCandidate := []
  external : List OriginatedExternal := []
  dynamic : List DynamicReference := []
  blocked : List UnresolvedReference := []
  unresolved : List UnresolvedReference := []

/-- The snapshot, with its view of the references that the manifest policy blocks. The counts
of the source are the lengths of the lists. -/
structure RestorableSnapshot extends LinkageLists where
  manifestBlocked : List UnresolvedReference

def LinkageLists.push (p : LinkageLists) : ListedReference → LinkageLists
  | .resolved edge => { p with resolved := p.resolved ++ [edge] }
  | .candidate entry => { p with candidates := p.candidates ++ [entry] }
  | .external entry => { p with external := p.external ++ [entry] }
  | .dynamic entry => { p with dynamic := p.dynamic ++ [entry] }
  | .blocked entry => { p with blocked := p.blocked ++ [entry] }
  | .unresolved entry => { p with unresolved := p.unresolved ++ [entry] }

def LinkageLists.intoSnapshot (p : LinkageLists) : RestorableSnapshot :=
  { p with manifestBlocked := p.blocked.filter (·.reason = .manifestBlocked) }

section Project

variable (scheme : List Char) (symbols : SymbolOrdinalCatalog)

/-- `project_unique_decision`. -/
def listUnique (r : IndexedReference) (evidence : ResolutionEvidence) :
    List SymbolId → ListedReference
  | [] => .unresolved ⟨r.id, r.targetIdentity, .noCandidate⟩
  | [target] => .resolved ⟨⟨r.id, target⟩, evidence⟩
  | targets => .candidate ⟨⟨r.id, targets, .multipleTargets⟩, .unknown, evidence⟩

/-- The entry that a decision on `r` is published as. -/
def listOutcome (r : IndexedReference) : ReferenceOutcome → ListedReference
  | .unique x => listUnique r x.evidence (symbols.idsOf x.targets)
  | .candidate reason x => .candidate
    ⟨⟨r.id, symbols.idsOf x.targets, reason⟩, x.scope.candidateScope, x.evidence⟩
  | .blocked reason => .blocked ⟨r.id, r.targetIdentity, reason.unresolvedReason⟩
  | .unknown reason => .unresolved ⟨r.id, r.targetIdentity, reason.unresolvedReason⟩
  | .external origin target => .external
    ⟨⟨r.id, (target.map (monikerUri scheme)).getD r.targetIdentity⟩, origin⟩
  | .dynamic reason candidates => .dynamic
    ⟨r.id, r.targetIdentity, reason, symbols.idsOf candidates⟩

/-- `LinkageReportProjection::from_decisions`. `none` is the panic on a position past the
table. -/
def projectLists (references : List IndexedReference) (decisions : List EvidencedDecision) :
    Option LinkageLists :=
  decisions.foldlM (fun p d =>
    (references[d.referenceIdx]?).map fun r => p.push (listOutcome scheme symbols r d.outcome)) {}

def publish (references : List IndexedReference) (decisions : List EvidencedDecision) :
    Option RestorableSnapshot :=
  (projectLists scheme symbols references decisions).map (·.intoSnapshot)

end Project

/-! ## Restoring -/

instance : LinearOrder ReferenceId :=
  LinearOrder.lift' (fun id : ReferenceId => toLex (id.file, id.reference)) fun a b h => by
    cases a
    cases b
    simpa using h

/-- The targets of the edges of one reference, the evidence of the first, and whether the catalog
misses one. -/
structure EdgeGroup where
  targets : SymbolSet
  evidence : ResolutionEvidence
  missingTarget : Bool

section Restore

variable (scheme : List Char) (symbols : SymbolOrdinalCatalog) (references : List IndexedReference)

def addEdge (groups : OrdMap ReferenceId EdgeGroup) (edge : EvidencedEdge) :
    OrdMap ReferenceId EdgeGroup :=
  let entry := (groups.get? edge.reference).getD ⟨∅, edge.evidence, false⟩
  groups.insert edge.reference <|
    match symbols.ordinal edge.target with
    | some target => { entry with targets := entry.targets.insert target }
    | none => { entry with missingTarget := true }

def restoreGroup (reference : ReferenceId) (group : EdgeGroup) : Option EvidencedDecision :=
  ((referenceIndexes references).lookup reference).map fun referenceIdx =>
    ⟨reference, referenceIdx, if group.missingTarget then .unknown .noCandidate
      else .resolved ⟨.global, group.evidence, group.targets⟩⟩

def resolvedDecisionsFromSnapshot (s : RestorableSnapshot) : List EvidencedDecision :=
  (s.resolved.foldl (addEdge symbols) ∅).entries.filterMap fun e =>
    restoreGroup references e.1 e.2

/-- The ordinals that ids still have. -/
def liveTargets (ids : List SymbolId) : SymbolSet := OrdSet.ofList (ids.filterMap symbols.ordinal)

def restoreCandidate (c : ScopedCandidate) : Option EvidencedDecision :=
  ((referenceIndexes references).lookup c.reference).map fun referenceIdx =>
    let targets := liveTargets symbols c.targets
    ⟨c.reference, referenceIdx,
      if targets.card = 0 ∨ targets.card ≠ c.targets.length then .unknown .noCandidate
      else .candidate c.reason ⟨resolutionScope c.scope, c.evidence, targets⟩⟩

def restoreDynamic (d : DynamicReference) : Option EvidencedDecision :=
  ((referenceIndexes references).lookup d.reference).map fun referenceIdx =>
    ⟨d.reference, referenceIdx, .dynamic d.reason (liveTargets symbols d.candidates)⟩

def restoreExternal (e : OriginatedExternal) : Option EvidencedDecision :=
  ((referenceIndexes references).lookup e.reference).map fun referenceIdx =>
    ⟨e.reference, referenceIdx,
      .external e.origin (fromUri e.targetIdentity.toList ⟨scheme⟩).toOption⟩

def restoreBlocked (u : UnresolvedReference) : Option EvidencedDecision := do
  let referenceIdx ← (referenceIndexes references).lookup u.reference
  let reason ← BlockReason.fromUnresolvedReason u.reason
  return ⟨u.reference, referenceIdx, .blocked reason⟩

/-- `none` stands also for the panic on a position past the table, which the table of positions
does not give. -/
def restoreUnresolved (u : UnresolvedReference) : Option EvidencedDecision := do
  let referenceIdx ← (referenceIndexes references).lookup u.reference
  let reason ← UnknownReason.fromUnresolvedReason u.reason
  let r ← references[referenceIdx]?
  return ⟨r.id, referenceIdx, .unknown reason⟩

def decisionsFromSnapshot (s : RestorableSnapshot) : List EvidencedDecision :=
  let blocked := if s.blocked = [] then s.manifestBlocked else s.blocked
  resolvedDecisionsFromSnapshot symbols references s ++
    s.candidates.filterMap (restoreCandidate symbols references) ++
    s.dynamic.filterMap (restoreDynamic symbols references) ++
    s.external.filterMap (restoreExternal scheme references) ++
    blocked.filterMap (restoreBlocked references) ++
    s.unresolved.filterMap (restoreUnresolved references)

end Restore

/-! ## Entries -/

namespace ListedReference

def asResolved : ListedReference → Option EvidencedEdge
  | resolved edge => some edge
  | _ => none

def asCandidate : ListedReference → Option ScopedCandidate
  | candidate entry => some entry
  | _ => none

def asExternal : ListedReference → Option OriginatedExternal
  | external entry => some entry
  | _ => none

def asDynamic : ListedReference → Option DynamicReference
  | dynamic entry => some entry
  | _ => none

def asBlocked : ListedReference → Option UnresolvedReference
  | blocked entry => some entry
  | _ => none

def asUnresolved : ListedReference → Option UnresolvedReference
  | unresolved entry => some entry
  | _ => none

variable {e : ListedReference}

theorem asResolved_eq_some {edge : EvidencedEdge} :
    e.asResolved = some edge ↔ e = resolved edge := by
  cases e <;> simp [asResolved]

theorem asCandidate_eq_some {c : ScopedCandidate} : e.asCandidate = some c ↔ e = candidate c := by
  cases e <;> simp [asCandidate]

theorem asExternal_eq_some {x : OriginatedExternal} : e.asExternal = some x ↔ e = external x := by
  cases e <;> simp [asExternal]

theorem asDynamic_eq_some {x : DynamicReference} : e.asDynamic = some x ↔ e = dynamic x := by
  cases e <;> simp [asDynamic]

theorem asBlocked_eq_some {u : UnresolvedReference} : e.asBlocked = some u ↔ e = blocked u := by
  cases e <;> simp [asBlocked]

theorem asUnresolved_eq_some {u : UnresolvedReference} :
    e.asUnresolved = some u ↔ e = unresolved u := by
  cases e <;> simp [asUnresolved]

end ListedReference

/-- The lists of some entries. -/
def LinkageLists.ofEntries (entries : List ListedReference) : LinkageLists where
  resolved := entries.filterMap (·.asResolved)
  candidates := entries.filterMap (·.asCandidate)
  external := entries.filterMap (·.asExternal)
  dynamic := entries.filterMap (·.asDynamic)
  blocked := entries.filterMap (·.asBlocked)
  unresolved := entries.filterMap (·.asUnresolved)

open ListedReference

theorem LinkageLists.ofEntries_append (entries : List ListedReference) (e : ListedReference) :
    ofEntries (entries ++ [e]) = (ofEntries entries).push e := by
  cases e with
  | _ => simp [ofEntries, push, asResolved, asCandidate, asExternal, asDynamic, asBlocked,
      asUnresolved]

/-- Each entry is in the list of its class. -/
theorem LinkageLists.perm_ofEntries : ∀ entries : List ListedReference,
    entries.Perm ((ofEntries entries).resolved.map .resolved ++
      (ofEntries entries).candidates.map .candidate ++ (ofEntries entries).dynamic.map .dynamic ++
      (ofEntries entries).external.map .external ++ (ofEntries entries).blocked.map .blocked ++
      (ofEntries entries).unresolved.map .unresolved)
  | [] => Perm.refl _
  | e :: entries => by
    have ih := perm_ofEntries entries
    refine perm_iff_count.mpr fun x => ?_
    have hcount := perm_iff_count.mp ih x
    cases e with
    | _ =>
      simp only [ofEntries, asResolved, asCandidate, asExternal, asDynamic, asBlocked,
        asUnresolved, count_append, filterMap_cons,
        map_cons, count_cons] at hcount ⊢
      omega

open LinkageLists

section Entries

variable (scheme : List Char) (symbols : SymbolOrdinalCatalog) (references : List IndexedReference)

/-- The entry of a decision, if there is a reference at its position. -/
def entryOf (d : EvidencedDecision) : Option ListedReference :=
  (references[d.referenceIdx]?).map fun r => listOutcome scheme symbols r d.outcome

theorem foldlM_push : ∀ (decisions : List EvidencedDecision) (entries : List ListedReference),
    decisions.foldlM (fun p d => (references[d.referenceIdx]?).map fun r =>
        p.push (listOutcome scheme symbols r d.outcome)) (.ofEntries entries) =
      (decisions.mapM (entryOf scheme symbols references)).map fun more =>
        ofEntries (entries ++ more)
  | [], entries => by simp
  | d :: decisions, entries => by
    rw [foldlM_cons, mapM_cons, entryOf]
    cases hr : references[d.referenceIdx]? with
    | none => rfl
    | some r =>
      have ih := foldlM_push decisions (entries ++ [listOutcome scheme symbols r d.outcome])
      simp only [map_some, Option.bind_eq_bind, Option.bind_some, Option.pure_def]
      rw [← ofEntries_append, ih]
      cases decisions.mapM (entryOf scheme symbols references) with
      | none => rfl
      | some more => simp

/-- The lists of a projection are those of the entries of its decisions. -/
theorem projectLists_eq (decisions : List EvidencedDecision) :
    projectLists scheme symbols references decisions =
      (decisions.mapM (entryOf scheme symbols references)).map .ofEntries := by
  rw [projectLists]
  exact foldlM_push scheme symbols references decisions []

end Entries

/-! ## Classes that are restored entry by entry -/

section Live

variable {symbols : SymbolOrdinalCatalog} (s : SymbolSet)

theorem filterMap_ordinal_idsOf :
    (symbols.idsOf s).filterMap symbols.ordinal = s.elems.filter fun o => (symbols.id o).isSome := by
  rw [idsOf, filterMap_filterMap, ← filterMap_eq_filter]
  refine filterMap_congr fun o _ => ?_
  cases hid : symbols.id o with
  | none => simp [Option.guard, hid]
  | some id => simp [Option.guard, hid, id_eq_some_iff.mp hid]

theorem elems_liveTargets : (liveTargets symbols (symbols.idsOf s)).elems =
      s.elems.filter fun o => (symbols.id o).isSome := by
  have hsorted : (s.elems.filter fun o => (symbols.id o).isSome).Pairwise (· < ·) :=
    s.sorted.filter _
  refine OrdSet.elems_eq_of_mem_iff (OrdSet.sorted _) hsorted fun o => ?_
  rw [liveTargets, filterMap_ordinal_idsOf, OrdSet.mem_elems, OrdSet.mem_ofList]

/-- The ids of the live targets are those of the set. -/
theorem idsOf_liveTargets :
    symbols.idsOf (liveTargets symbols (symbols.idsOf s)) = symbols.idsOf s := by
  rw [idsOf, elems_liveTargets, filterMap_filter]
  refine filterMap_congr fun o _ => ?_
  cases symbols.id o <;> simp

theorem card_liveTargets :
    (liveTargets symbols (symbols.idsOf s)).card = (symbols.idsOf s).length := by
  rw [OrdSet.card, elems_liveTargets, idsOf, length_filterMap_eq_countP, countP_eq_length_filter]

end Live

section Classes

variable {reader : RecordReader} {m : CodeIndexMaterial} (symbols : SymbolOrdinalCatalog)

/-- The entry of an outcome of some reference of the index. -/
def IsListed (reader : RecordReader) (m : CodeIndexMaterial) (symbols : SymbolOrdinalCatalog)
    (e : ListedReference) : Prop :=
  ∃ r ∈ references reader m, ∃ outcome, e = listOutcome reader.scheme symbols r outcome

/-- The restored decision finds the reference of the entry. -/
theorem entryOf_restored {r : IndexedReference} (hr : r ∈ references reader m)
    (outcome : ReferenceOutcome) :
    ∃ i, (referenceIndexes (references reader m)).lookup r.id = some i ∧
      (references reader m)[i]? = some r ∧
      entryOf reader.scheme symbols (references reader m) ⟨r.id, i, outcome⟩ =
        some (listOutcome reader.scheme symbols r outcome) := by
  obtain ⟨i, hi⟩ := mem_iff_getElem?.mp hr
  have hid : (referenceIds reader m)[i]? = some r.id := by
    rw [referenceIds, getElem?_map, hi, map_some]
  refine ⟨i, (positions_referenceIndexes reader m r.id i).mpr hid, hi, ?_⟩
  rw [entryOf, hi, map_some]

variable {symbols} {scheme : List Char} {r : IndexedReference} {outcome : ReferenceOutcome}

/-- What an entry of each class says of the outcome that it publishes. -/
def Publishes (scheme : List Char) (symbols : SymbolOrdinalCatalog) (r : IndexedReference)
    (outcome : ReferenceOutcome) : ListedReference → Prop
  | .resolved edge => ∃ x, outcome = .unique x ∧ symbols.idsOf x.targets = [edge.target] ∧
      edge.reference = r.id ∧ edge.evidence = x.evidence
  | .candidate c => ∃ x, c.reference = r.id ∧ c.targets = symbols.idsOf x.targets ∧
      (outcome = .candidate c.reason x ∨ c.targets ≠ [])
  | .dynamic x => ∃ candidates, x = ⟨r.id, r.targetIdentity, x.reason, symbols.idsOf candidates⟩
  | .external x => ∃ target : Option Moniker,
      x = ⟨⟨r.id, (target.map (monikerUri scheme)).getD r.targetIdentity⟩, x.origin⟩
  | .blocked u => ∃ reason : BlockReason, u = ⟨r.id, r.targetIdentity, reason.unresolvedReason⟩
  | .unresolved u => ∃ reason : UnknownReason,
      u = ⟨r.id, r.targetIdentity, reason.unresolvedReason⟩

theorem publishes_listOutcome :
    Publishes scheme symbols r outcome (listOutcome scheme symbols r outcome) := by
  cases outcome with
  | unique x =>
    rw [listOutcome]
    match hids : symbols.idsOf x.targets with
    | [] => exact ⟨.noCandidate, rfl⟩
    | [target] => exact ⟨x, rfl, hids, rfl, rfl⟩
    | _ :: _ :: _ => exact ⟨x, rfl, hids.symm, Or.inr (cons_ne_nil _ _)⟩
  | candidate reason x => exact ⟨x, rfl, rfl, Or.inl rfl⟩
  | external origin target => exact ⟨target, rfl⟩
  | blocked reason => exact ⟨reason, rfl⟩
  | dynamic reason candidates => exact ⟨candidates, rfl⟩
  | unknown reason => exact ⟨reason, rfl⟩

theorem IsListed.publishes {e : ListedReference} (h : IsListed reader m symbols e) :
    ∃ r ∈ references reader m, ∃ outcome, Publishes reader.scheme symbols r outcome e := by
  obtain ⟨r, hr, outcome, rfl⟩ := h
  exact ⟨r, hr, outcome, publishes_listOutcome⟩

/-! Each entry comes back, a candidate without targets apart. -/

theorem restoreCandidate_listed {c : ScopedCandidate}
    (h : IsListed reader m symbols (.candidate c)) : ∃ d e,
    restoreCandidate symbols (references reader m) c = some d ∧
      entryOf reader.scheme symbols (references reader m) d = some e ∧
      if c.targets = [] then ∃ u, e = .unresolved u else e = .candidate c := by
  obtain ⟨r, hr, outcome, x, hid, htargets, -⟩ := h.publishes
  have hcard : (liveTargets symbols c.targets).card = c.targets.length := by
    rw [htargets, card_liveTargets]
  obtain ⟨i, hlookup, -, hentry⟩ := entryOf_restored symbols hr
    (if c.targets = [] then .unknown .noCandidate
      else .candidate c.reason ⟨resolutionScope c.scope, c.evidence, liveTargets symbols c.targets⟩)
  refine ⟨_, _, ?_, hentry, ?_⟩
  · rw [restoreCandidate, hid, hlookup, map_some]
    simp [hcard]
  · split_ifs with hempty
    · exact ⟨_, rfl⟩
    · rw [listOutcome, htargets, idsOf_liveTargets, ← htargets, ← hid,
        candidateScope_resolutionScope]

theorem restoreDynamic_listed {x : DynamicReference} (h : IsListed reader m symbols (.dynamic x)) :
    ∃ d e, restoreDynamic symbols (references reader m) x = some d ∧
      entryOf reader.scheme symbols (references reader m) d = some e ∧ e = .dynamic x := by
  obtain ⟨r, hr, outcome, candidates, hx⟩ := h.publishes
  obtain ⟨i, hlookup, -, hentry⟩ := entryOf_restored symbols hr
    (.dynamic x.reason (liveTargets symbols (symbols.idsOf candidates)))
  refine ⟨_, _, ?_, hentry, ?_⟩
  · rw [restoreDynamic, hx, hlookup]
    rfl
  · rw [listOutcome, idsOf_liveTargets, ← hx]

theorem fromUri_monikerUri (scheme : List Char) (target : Moniker) :
    fromUri (monikerUri scheme target).toList ⟨scheme⟩ = .ok target := by
  obtain ⟨uri, hto, hfrom⟩ := fromUri_toUri target ⟨scheme⟩
  rw [monikerUri, hto]
  simpa [Except.toOption] using hfrom

/-- A reference of the index names the URI of a moniker. -/
theorem targetIdentity_of_mem {r : IndexedReference} (hr : r ∈ references reader m) :
    ∃ target, r.targetIdentity = monikerUri reader.scheme target := by
  obtain ⟨l, hl, hr⟩ := mem_flatten.mp hr
  obtain ⟨slot, file, hfile⟩ := mem_mapIdx.mp hl
  subst hfile
  obtain ⟨i, record, hrecord⟩ := mem_mapIdx.mp hr
  subst hrecord
  exact ⟨_, rfl⟩

theorem restoreExternal_listed {x : OriginatedExternal}
    (h : IsListed reader m symbols (.external x)) : ∃ d e,
    restoreExternal reader.scheme (references reader m) x = some d ∧
      entryOf reader.scheme symbols (references reader m) d = some e ∧ e = .external x := by
  obtain ⟨r, hr, outcome, target, hx⟩ := h.publishes
  obtain ⟨target, htarget⟩ : ∃ target, x.targetIdentity = monikerUri reader.scheme target := by
    cases target with
    | none =>
      obtain ⟨target, htarget⟩ := targetIdentity_of_mem hr
      exact ⟨target, by rw [hx, ← htarget]; rfl⟩
    | some target => exact ⟨target, by rw [hx]; rfl⟩
  have hid : x.reference = r.id := by rw [hx]
  obtain ⟨i, hlookup, -, hentry⟩ := entryOf_restored symbols hr (.external x.origin (some target))
  refine ⟨_, _, ?_, hentry, ?_⟩
  · rw [restoreExternal, hid, hlookup, htarget, fromUri_monikerUri]
    rfl
  · rw [listOutcome, map_some, getD_some, ← htarget, ← hid]

theorem restoreBlocked_listed {u : UnresolvedReference}
    (h : IsListed reader m symbols (.blocked u)) : ∃ d e,
    restoreBlocked (references reader m) u = some d ∧
      entryOf reader.scheme symbols (references reader m) d = some e ∧ e = .blocked u := by
  obtain ⟨r, hr, outcome, reason, rfl⟩ := h.publishes
  obtain ⟨i, hlookup, -, hentry⟩ := entryOf_restored symbols hr (.blocked reason)
  refine ⟨_, _, ?_, hentry, rfl⟩
  simp [restoreBlocked, hlookup]

theorem restoreUnresolved_listed {u : UnresolvedReference}
    (h : IsListed reader m symbols (.unresolved u)) : ∃ d e,
    restoreUnresolved (references reader m) u = some d ∧
      entryOf reader.scheme symbols (references reader m) d = some e ∧ e = .unresolved u := by
  obtain ⟨r, hr, outcome, reason, rfl⟩ := h.publishes
  obtain ⟨i, hlookup, hget, hentry⟩ := entryOf_restored symbols hr (.unknown reason)
  refine ⟨_, _, ?_, hentry, rfl⟩
  simp [restoreUnresolved, hlookup, hget]

end Classes

/-! ## Groups of edges -/

section Groups

variable {symbols : SymbolOrdinalCatalog}

/-- The group of one edge. -/
def singleGroup (symbols : SymbolOrdinalCatalog) (edge : EvidencedEdge) : EdgeGroup :=
  match symbols.ordinal edge.target with
  | some target => ⟨OrdSet.insert target ∅, edge.evidence, false⟩
  | none => ⟨∅, edge.evidence, true⟩

theorem addEdge_of_new {groups : OrdMap ReferenceId EdgeGroup} {edge : EvidencedEdge}
    (h : groups.get? edge.reference = none) :
    addEdge symbols groups edge = groups.insert edge.reference (singleGroup symbols edge) := by
  rw [addEdge, h, Option.getD_none, singleGroup]

/-- With one edge for each reference the groups are single. -/
theorem foldl_addEdge_of_nodup : ∀ (edges : List EvidencedEdge)
    (groups : OrdMap ReferenceId EdgeGroup), (edges.map (·.reference)).Nodup →
    (∀ edge ∈ edges, groups.get? edge.reference = none) →
      edges.foldl (addEdge symbols) groups = (edges.map fun edge =>
        (edge.reference, singleGroup symbols edge)).foldl (fun m e => m.insert e.1 e.2) groups
  | [], _, _, _ => rfl
  | edge :: edges, groups, hnodup, hnew => by
    obtain ⟨hhead, htail⟩ := nodup_cons.mp hnodup
    rw [foldl_cons, addEdge_of_new (hnew edge mem_cons_self), map_cons, foldl_cons]
    refine foldl_addEdge_of_nodup edges _ htail fun edge' hedge' => ?_
    have hne : edge'.reference ≠ edge.reference := fun heq =>
      hhead (mem_map.mpr ⟨edge', hedge', heq⟩)
    rw [OrdMap.get?_insert, if_neg hne]
    exact hnew edge' (mem_cons_of_mem edge hedge')

/-- A group of live targets, at least one. -/
structure EdgeGroup.Live (symbols : SymbolOrdinalCatalog) (group : EdgeGroup) : Prop where
  present : group.missingTarget = false
  nonempty : group.targets.card ≠ 0
  live : ∀ o ∈ group.targets, ∃ id, symbols.id o = some id

/-- The groups are on references of the edges, and their targets are live. -/
def GroupsOf (symbols : SymbolOrdinalCatalog) (ids : List ReferenceId)
    (groups : OrdMap ReferenceId EdgeGroup) : Prop :=
  ∀ id group, groups.get? id = some group → id ∈ ids ∧ group.Live symbols

theorem live_insert {targets : SymbolSet} (evidence : ResolutionEvidence) {target : SymbolOrdinal}
    {id : SymbolId} (h : symbols.ordinal id = some target)
    (hlive : ∀ o ∈ targets, ∃ id, symbols.id o = some id) :
    EdgeGroup.Live symbols ⟨targets.insert target, evidence, false⟩ where
  present := rfl
  nonempty := by
    have hmem : target ∈ (targets.insert target).elems := by simp
    simpa [OrdSet.card] using ne_nil_of_mem hmem
  live o ho := by
    rcases OrdSet.mem_insert.mp ho with rfl | ho
    · exact ⟨id, id_eq_some_iff.mpr h⟩
    · exact hlive o ho

theorem GroupsOf.addEdge {ids : List ReferenceId} {groups : OrdMap ReferenceId EdgeGroup}
    (h : GroupsOf symbols ids groups) {edge : EvidencedEdge} (hid : edge.reference ∈ ids)
    {target : SymbolOrdinal} (htarget : symbols.ordinal edge.target = some target) :
    GroupsOf symbols ids (CodeMoniker.addEdge symbols groups edge) := by
  intro id group hget
  rw [CodeMoniker.addEdge, htarget] at hget
  simp only [OrdMap.get?_insert] at hget
  split_ifs at hget with heq
  · obtain rfl := Option.some.inj hget
    refine ⟨heq ▸ hid, ?_⟩
    cases hentry : groups.get? edge.reference with
    | none => exact live_insert edge.evidence htarget (by simp)
    | some entry =>
      obtain ⟨-, hentry⟩ := h _ _ hentry
      have hlive := live_insert entry.evidence htarget hentry.live
      rw [getD_some]
      simpa [hentry.present] using hlive
  · exact h id group hget

theorem GroupsOf.foldl {ids : List ReferenceId} : ∀ {edges : List EvidencedEdge}
    {groups : OrdMap ReferenceId EdgeGroup}, GroupsOf symbols ids groups →
    (∀ edge ∈ edges, edge.reference ∈ ids ∧ ∃ target, symbols.ordinal edge.target = some target) →
      GroupsOf symbols ids (edges.foldl (CodeMoniker.addEdge symbols) groups)
  | [], _, h, _ => h
  | edge :: edges, _, h, hedges => by
    obtain ⟨hid, target, htarget⟩ := hedges edge mem_cons_self
    exact (h.addEdge hid htarget).foldl fun edge' hedge' =>
      hedges edge' (mem_cons_of_mem edge hedge')

/-- The edge of a group with one target. -/
def groupEdge (symbols : SymbolOrdinalCatalog) (e : ReferenceId × EdgeGroup) : ListedReference :=
  .resolved ⟨⟨e.1, (symbols.idsOf e.2.targets).headD ⟨0, 0⟩⟩, e.2.evidence⟩

theorem idsOf_insert_empty {target : SymbolOrdinal} {id : SymbolId}
    (h : symbols.id target = some id) : symbols.idsOf (OrdSet.insert target ∅) = [id] := by
  have helems : (OrdSet.insert target ∅ : SymbolSet).elems = [target] := rfl
  rw [idsOf, helems, filterMap_cons_some h, filterMap_nil]

theorem groupEdge_singleGroup {edge : EvidencedEdge} {target : SymbolOrdinal}
    (h : symbols.ordinal edge.target = some target) :
    groupEdge symbols (edge.reference, singleGroup symbols edge) = .resolved edge := by
  rw [groupEdge, singleGroup, h]
  simp only [idsOf_insert_empty (id_eq_some_iff.mpr h), headD_cons]

variable {reader : RecordReader} {m : CodeIndexMaterial}

theorem IsListed.edge {edge : EvidencedEdge} (h : IsListed reader m symbols (.resolved edge)) :
    edge.reference ∈ referenceIds reader m ∧ ∃ target, symbols.ordinal edge.target = some target := by
  obtain ⟨r, hr, outcome, x, -, hids, hid, -⟩ := h.publishes
  have hmem : edge.target ∈ symbols.idsOf x.targets := by simp [hids]
  obtain ⟨target, -, htarget⟩ := mem_filterMap.mp hmem
  exact ⟨hid ▸ mem_map_of_mem hr, target, id_eq_some_iff.mp htarget⟩

/-- A group comes back as an edge if it has one target and more than a name as its evidence, else
as a candidate. -/
def GroupListed (symbols : SymbolOrdinalCatalog) (e : ReferenceId × EdgeGroup)
    (entry : ListedReference) : Prop :=
  if e.2.evidence ≠ .nameMatch ∧ e.2.targets.card = 1 then entry = groupEdge symbols e
  else ∃ c, entry = .candidate c

theorem restoreGroup_listed {e : ReferenceId × EdgeGroup} (hid : e.1 ∈ referenceIds reader m)
    (hlive : e.2.Live symbols) : ∃ d entry, restoreGroup (references reader m) e.1 e.2 = some d ∧
      entryOf reader.scheme symbols (references reader m) d = some entry ∧
      GroupListed symbols e entry := by
  obtain ⟨id, group⟩ := e
  obtain ⟨r, hr, rfl⟩ := mem_map.mp hid
  obtain ⟨i, hlookup, -, hentry⟩ := entryOf_restored symbols hr
    (.resolved ⟨.global, group.evidence, group.targets⟩)
  refine ⟨_, _, ?_, hentry, ?_⟩
  · rw [restoreGroup, hlookup, map_some, hlive.present]
    rfl
  · rw [ReferenceOutcome.resolved, if_neg hlive.nonempty, ResolutionDecision.candidateReason]
    dsimp only [GroupListed]
    by_cases hname : group.evidence = .nameMatch
    · simp only [hname, ne_eq, not_true_eq_false, false_and, if_false, if_true]
      exact ⟨_, rfl⟩
    · by_cases hcard : group.targets.card = 1
      · simp only [ne_eq, hname, not_false_eq_true, hcard, and_self, if_true, if_false, lt_irrefl]
        obtain ⟨o, ho⟩ := length_eq_one_iff.mp hcard
        obtain ⟨target, htarget⟩ := hlive.live o (by simp [OrdSet.mem_def, ho])
        have hids : symbols.idsOf group.targets = [target] := by
          rw [idsOf, ho, filterMap_cons_some htarget, filterMap_nil]
        rw [listOutcome, groupEdge, hids]
        rfl
      · have hnonempty : group.targets.card ≠ 0 := hlive.nonempty
        have hmany : 1 < group.targets.card := by omega
        simp only [hname, hcard, and_false, if_false, hmany, if_true]
        exact ⟨_, rfl⟩

end Groups

/-! ## The round trip -/

namespace RestorableSnapshot

/-- The same lists up to the order of each. -/
structure Same (s s' : RestorableSnapshot) : Prop where
  resolved : s.resolved.Perm s'.resolved
  candidates : s.candidates.Perm s'.candidates
  external : s.external.Perm s'.external
  dynamic : s.dynamic.Perm s'.dynamic
  blocked : s.blocked.Perm s'.blocked
  manifestBlocked : s.manifestBlocked.Perm s'.manifestBlocked
  unresolved : s.unresolved.Perm s'.unresolved

theorem same_of_perm {entries entries' : List ListedReference} (h : entries.Perm entries') :
    (ofEntries entries).intoSnapshot.Same (ofEntries entries').intoSnapshot where
  resolved := h.filterMap _
  candidates := h.filterMap _
  external := h.filterMap _
  dynamic := h.filterMap _
  blocked := h.filterMap _
  manifestBlocked := (h.filterMap _).filter _
  unresolved := h.filterMap _

end RestorableSnapshot

/-- The decision is published as an edge. -/
def EvidencedDecision.publishesEdge (symbols : SymbolOrdinalCatalog) (d : EvidencedDecision) : Bool :=
  match d.outcome with
  | .unique x => (symbols.idsOf x.targets).length = 1
  | _ => false

/-- There is one edge for a reference, with more than a name as its evidence, and a candidate has
a target that the catalog knows. -/
structure Restorable (symbols : SymbolOrdinalCatalog) (decisions : List EvidencedDecision) : Prop where
  once : ((decisions.filter (·.publishesEdge symbols)).map (·.referenceIdx)).Nodup
  evidence : ∀ d ∈ decisions, d.publishesEdge symbols = true →
    ∀ x, d.outcome = .unique x → x.evidence ≠ .nameMatch
  targets : ∀ d ∈ decisions, ∀ reason x, d.outcome = .candidate reason x →
    symbols.idsOf x.targets ≠ []

/-- The decisions that `resolved` builds, one for each reference, with candidates that the catalog
knows. -/
theorem restorable_of_resolved {symbols : SymbolOrdinalCatalog} {decisions : List EvidencedDecision}
    (honce : (decisions.map (·.referenceIdx)).Nodup)
    (hbuilt : ∀ d ∈ decisions, ∃ x, d.outcome = .resolved x)
    (htargets : ∀ d ∈ decisions, ∀ reason x, d.outcome = .candidate reason x →
      symbols.idsOf x.targets ≠ []) : Restorable symbols decisions where
  once := honce.sublist (filter_sublist.map _)
  evidence d hd _ x hx := by
    obtain ⟨y, hy⟩ := hbuilt d hd
    rw [hy, ReferenceOutcome.resolved, ResolutionDecision.candidateReason] at hx
    split_ifs at hx with hnone hname
    obtain rfl := ReferenceOutcome.unique.inj hx
    exact hname
  targets := htargets

section RoundTrip

variable {reader : RecordReader} {m : CodeIndexMaterial} {symbols : SymbolOrdinalCatalog}

/-- What the restored decisions are published as : the entries of the groups and the candidates,
and the other entries as they were. -/
theorem entries_restored {entries : List ListedReference}
    (hlisted : ∀ e ∈ entries, IsListed reader m symbols e) : let lists := ofEntries entries
    ∃ edges candidates,
      (decisionsFromSnapshot reader.scheme symbols (references reader m)
        lists.intoSnapshot).mapM (entryOf reader.scheme symbols (references reader m)) =
          some (edges ++ candidates ++ lists.dynamic.map .dynamic ++
            lists.external.map .external ++ lists.blocked.map .blocked ++
            lists.unresolved.map .unresolved) ∧
      Forall₂ (GroupListed symbols) (lists.resolved.foldl (addEdge symbols) ∅).entries edges ∧
      Forall₂ (fun (c : ScopedCandidate) entry =>
        if c.targets = [] then ∃ u, entry = .unresolved u else entry = .candidate c)
          lists.candidates candidates := by
  intro lists
  have hclass : ∀ {α : Type} {f : ListedReference → Option α} {g : α → ListedReference},
      (∀ e a, f e = some a ↔ e = g a) → ∀ a ∈ entries.filterMap f,
        IsListed reader m symbols (g a) := by
    intro α f g hfg a ha
    obtain ⟨e, he, hf⟩ := mem_filterMap.mp ha
    exact (hfg e a).mp hf ▸ hlisted e he
  have hresolved := hclass fun _ _ => asResolved_eq_some
  have hgroups : GroupsOf symbols (referenceIds reader m)
      (lists.resolved.foldl (addEdge symbols) ∅) :=
    GroupsOf.foldl (fun id group hget => by simp at hget) fun edge hedge => (hresolved edge hedge).edge
  obtain ⟨edges, hedges, hedges'⟩ := mapM_filterMap
    (l := (lists.resolved.foldl (addEdge symbols) ∅).entries) fun e he =>
      have hget := hgroups e.1 e.2 (OrdMap.mem_entries.mp he)
      restoreGroup_listed hget.1 hget.2
  obtain ⟨candidates, hcands, hcands'⟩ := mapM_filterMap (l := lists.candidates) fun c hc =>
    restoreCandidate_listed (hclass (fun _ _ => asCandidate_eq_some) c hc)
  obtain ⟨dynamics, hdyn, hdyn'⟩ := mapM_filterMap (l := lists.dynamic) fun x hx =>
    restoreDynamic_listed (hclass (fun _ _ => asDynamic_eq_some) x hx)
  obtain ⟨externals, hext, hext'⟩ := mapM_filterMap (l := lists.external) fun x hx =>
    restoreExternal_listed (hclass (fun _ _ => asExternal_eq_some) x hx)
  obtain ⟨blocked, hblock, hblock'⟩ := mapM_filterMap (l := lists.blocked) fun u hu =>
    restoreBlocked_listed (hclass (fun _ _ => asBlocked_eq_some) u hu)
  obtain ⟨unresolved, hun, hun'⟩ := mapM_filterMap (l := lists.unresolved) fun u hu =>
    restoreUnresolved_listed (hclass (fun _ _ => asUnresolved_eq_some) u hu)
  refine ⟨edges, candidates, ?_, hedges', hcands'⟩
  have hlist : (if lists.intoSnapshot.blocked = [] then lists.intoSnapshot.manifestBlocked
      else lists.intoSnapshot.blocked) = lists.blocked := by
    split_ifs with hempty
    · have hempty' : lists.blocked = [] := hempty
      simp [intoSnapshot, hempty']
    · rfl
  rw [decisionsFromSnapshot, hlist, resolvedDecisionsFromSnapshot,
    ← eq_map_of_forall₂ hdyn' fun _ _ _ h => h, ← eq_map_of_forall₂ hext' fun _ _ _ h => h,
    ← eq_map_of_forall₂ hblock' fun _ _ _ h => h, ← eq_map_of_forall₂ hun' fun _ _ _ h => h]
  exact mapM_append_some (mapM_append_some (mapM_append_some (mapM_append_some
    (mapM_append_some hedges hcands) hdyn) hext) hblock) hun

/-- With one edge for each reference, and more than names as evidence, the groups come back as
the edges. -/
theorem edges_restored {edges : List EvidencedEdge} {listed : List ListedReference}
    (hlive : ∀ edge ∈ edges, ∃ target, symbols.ordinal edge.target = some target)
    (honce : (edges.map (·.reference)).Nodup) (hevidence : ∀ edge ∈ edges, edge.evidence ≠ .nameMatch)
    (h : Forall₂ (GroupListed symbols) (edges.foldl (addEdge symbols) ∅).entries listed) :
    listed.Perm (edges.map .resolved) := by
  have hgroups : (edges.foldl (addEdge symbols) ∅).entries.Perm
      (edges.map fun edge => (edge.reference, singleGroup symbols edge)) := by
    rw [foldl_addEdge_of_nodup edges ∅ honce (by simp)]
    refine OrdMap.perm_entries_ofList ?_
    rwa [map_map]
  have hentry : ∀ e ∈ (edges.foldl (addEdge symbols) ∅).entries,
      e.2.evidence ≠ .nameMatch ∧ e.2.targets.card = 1 := by
    intro e he
    obtain ⟨edge, hedge, rfl⟩ := mem_map.mp (hgroups.mem_iff.mp he)
    obtain ⟨target, htarget⟩ := hlive edge hedge
    simp only [singleGroup, htarget]
    exact ⟨hevidence edge hedge, rfl⟩
  have hlisted : listed = (edges.foldl (addEdge symbols) ∅).entries.map (groupEdge symbols) := by
    refine eq_map_of_forall₂ h fun e he entry hif => ?_
    rwa [GroupListed, if_pos (hentry e he)] at hif
  have hedges : (edges.map fun edge => (edge.reference, singleGroup symbols edge)).map
      (groupEdge symbols) = edges.map .resolved := by
    rw [map_map]
    refine map_congr_left fun edge hedge => ?_
    obtain ⟨target, htarget⟩ := hlive edge hedge
    exact groupEdge_singleGroup htarget
  rw [hlisted, ← hedges]
  exact hgroups.map _

/-- As many edges as before leave one edge for each reference, with more than its name as
evidence. -/
theorem edges_of_length {edges : List EvidencedEdge} {listed : List ListedReference}
    (hlive : ∀ edge ∈ edges, ∃ target, symbols.ordinal edge.target = some target)
    (h : Forall₂ (GroupListed symbols) (edges.foldl (addEdge symbols) ∅).entries listed)
    (hlength : edges.length ≤ (listed.filterMap (·.asResolved)).length) :
    (edges.map (·.reference)).Nodup ∧ ∀ edge ∈ edges, edge.evidence ≠ .nameMatch := by
  have hgroups : GroupsOf symbols (edges.map (·.reference)) (edges.foldl (addEdge symbols) ∅) :=
    GroupsOf.foldl (fun id group hget => by simp at hget) fun edge hedge =>
      ⟨mem_map_of_mem hedge, hlive edge hedge⟩
  have hsub : (edges.foldl (addEdge symbols) ∅).keys.Subperm (edges.map (·.reference)) := by
    refine subperm_of_subset (OrdMap.nodup_keys _) fun id hid => ?_
    obtain ⟨group, hget⟩ := OrdMap.mem_keys.mp hid
    exact (hgroups id group hget).1
  have hle : (listed.filterMap (·.asResolved)).length ≤ listed.length :=
    length_filterMap_le _ _
  have hcount : (edges.foldl (addEdge symbols) ∅).keys.length = listed.length := by
    rw [OrdMap.keys, length_map, h.length_eq]
  have hkeys := hsub.length_le
  rw [length_map] at hkeys
  have honce : (edges.map (·.reference)).Nodup := by
    have hperm := hsub.perm_of_length_le (by rw [length_map]; omega)
    exact hperm.nodup_iff.mp (OrdMap.nodup_keys _)
  refine ⟨honce, fun edge hedge hname => ?_⟩
  -- the group of the edge is listed as a candidate, which leaves one edge less
  have hmem : (edge.reference, singleGroup symbols edge) ∈
      (edges.foldl (addEdge symbols) ∅).entries := by
    rw [foldl_addEdge_of_nodup edges ∅ honce (by simp)]
    refine (OrdMap.perm_entries_ofList (by rwa [map_map])).mem_iff.mpr ?_
    exact mem_map.mpr ⟨edge, hedge, rfl⟩
  have hall : ∀ entry ∈ listed, (asResolved entry).isSome := by
    have hlen : (listed.filterMap (·.asResolved)).length = listed.length := by omega
    exact filterMap_length_eq_length.mp hlen
  obtain ⟨entry, hentry, hif⟩ := exists_of_forall₂ h hmem
  have hevidence : (singleGroup symbols edge).evidence = .nameMatch := by
    obtain ⟨target, htarget⟩ := hlive edge hedge
    simpa only [singleGroup, htarget] using hname
  rw [GroupListed, if_neg (by simp [hevidence])] at hif
  obtain ⟨c, rfl⟩ := hif
  simpa [asResolved] using hall _ hentry

theorem filterMap_map_nil {α β : Type} {f : α → ListedReference} {g : ListedReference → Option β}
    {l : List α} (h : ∀ a, g (f a) = none) : (l.map f).filterMap g = [] := by
  rw [filterMap_map]
  exact filterMap_eq_nil_iff.mpr fun a _ => h a

variable {decisions : List EvidencedDecision} {entries : List ListedReference}

/-- The lists of the entries of decisions. -/
theorem isListed_of_mapM
    (h : decisions.mapM (entryOf reader.scheme symbols (references reader m)) = some entries) :
    ∀ e ∈ entries, IsListed reader m symbols e := by
  intro e he
  obtain ⟨d, -, hd⟩ := exists_left_of_forall₂ (forall₂_of_mapM h) he
  obtain ⟨r, hr, heq⟩ := map_eq_some_iff.mp hd
  exact ⟨r, mem_of_getElem? hr, d.outcome, heq.symm⟩

/-- The restored entries are the entries, if and only if there is one edge for each reference,
each with more than a name as evidence, and no candidate without targets. -/
theorem restored_same_iff {entries : List ListedReference}
    (hlisted : ∀ e ∈ entries, IsListed reader m symbols e) : let lists := ofEntries entries
    ∃ entries', (decisionsFromSnapshot reader.scheme symbols (references reader m)
        lists.intoSnapshot).mapM (entryOf reader.scheme symbols (references reader m)) =
          some entries' ∧
      ((ofEntries entries').intoSnapshot.Same lists.intoSnapshot ↔
        (lists.resolved.map (·.reference)).Nodup ∧
          (∀ edge ∈ lists.resolved, edge.evidence ≠ .nameMatch) ∧
            ∀ c ∈ lists.candidates, c.targets ≠ []) := by
  intro lists
  have hlive : ∀ edge ∈ lists.resolved, ∃ target, symbols.ordinal edge.target = some target := by
    intro edge hedge
    obtain ⟨e, he, heq⟩ := mem_filterMap.mp hedge
    rw [asResolved_eq_some] at heq
    exact (heq ▸ hlisted e he).edge.2
  obtain ⟨edges, candidates, hmapM, hedges, hcandidates⟩ := entries_restored hlisted
  refine ⟨_, hmapM, ?_, ?_⟩
  · intro hsame
    have hresolved := hsame.resolved.length_eq
    have hunresolved := hsame.unresolved.length_eq
    rw [intoSnapshot, ofEntries] at hresolved hunresolved
    simp only [filterMap_append, length_append] at hresolved hunresolved
    rw [filterMap_map_nil fun _ => rfl, filterMap_map_nil fun _ => rfl,
      filterMap_map_nil fun _ => rfl, filterMap_map_nil fun _ => rfl] at hresolved
    rw [filterMap_map_nil fun _ => rfl, filterMap_map_nil fun _ => rfl,
      filterMap_map_nil fun _ => rfl, filterMap_map] at hunresolved
    have hsome : lists.unresolved.filterMap
        ((fun e => asUnresolved e) ∘ .unresolved) = lists.unresolved :=
      filterMap_some
    have hnone : candidates.filterMap (·.asResolved) = [] := by
      refine filterMap_eq_nil_iff.mpr fun entry hentry => ?_
      obtain ⟨c, -, hif⟩ := exists_left_of_forall₂ hcandidates hentry
      split_ifs at hif with hempty
      · obtain ⟨u, rfl⟩ := hif
        rfl
      · rw [hif]
        rfl
    have hcounted := edges_of_length hlive hedges (by
      rw [hnone] at hresolved
      simp only [length_nil, add_zero] at hresolved
      exact hresolved.ge)
    refine ⟨hcounted.1, hcounted.2, fun c hc hempty => ?_⟩
    obtain ⟨entry, hentry, hif⟩ := exists_of_forall₂ hcandidates hc
    rw [if_pos hempty] at hif
    obtain ⟨u, rfl⟩ := hif
    have hpos : 0 < (candidates.filterMap (·.asUnresolved)).length :=
      length_pos_of_mem (mem_filterMap.mpr ⟨_, hentry, rfl⟩)
    rw [hsome] at hunresolved
    simp only [length_nil, intoSnapshot] at hunresolved
    omega
  · rintro ⟨honce, hevidence, htargets⟩
    have hcands : candidates = lists.candidates.map .candidate := by
      refine eq_map_of_forall₂ hcandidates fun c hc entry hif => ?_
      rwa [if_neg (htargets c hc)] at hif
    refine RestorableSnapshot.same_of_perm (Perm.trans ?_ (perm_ofEntries entries).symm)
    rw [hcands]
    have hperm := edges_restored hlive honce hevidence hedges
    exact ((((hperm.append_right _).append_right _).append_right _).append_right _).append_right _

theorem asResolved_listOutcome (symbols : SymbolOrdinalCatalog) (scheme : List Char)
    (r : IndexedReference) (d : EvidencedDecision) :
    (∃ edge, listOutcome scheme symbols r d.outcome = .resolved edge) ↔
      d.publishesEdge symbols = true := by
  constructor
  · rintro ⟨edge, hedge⟩
    obtain ⟨x, hx, hids, -⟩ : Publishes _ symbols r _ (.resolved edge) :=
      hedge ▸ publishes_listOutcome
    simp [EvidencedDecision.publishesEdge, hx, hids]
  · intro h
    unfold EvidencedDecision.publishesEdge at h
    split at h
    next x hx =>
      obtain ⟨target, htarget⟩ := length_eq_one_iff.mp (of_decide_eq_true h)
      exact ⟨⟨⟨r.id, target⟩, x.evidence⟩, by rw [hx, listOutcome, htarget, listUnique]⟩
    next => simp at h

/-- The edges stand on the references at the positions of the decisions that publish one. -/
theorem references_of_edges
    (h : Forall₂ (fun d e => entryOf reader.scheme symbols (references reader m) d = some e)
      decisions entries) : ((entries.filterMap (·.asResolved)).map (·.reference)).map some =
      ((decisions.filter (·.publishesEdge symbols)).map (·.referenceIdx)).map fun i =>
        (referenceIds reader m)[i]? := by
  induction h with
  | nil => rfl
  | @cons d e decisions entries h _ ih =>
    obtain ⟨r, hr, heq⟩ := map_eq_some_iff.mp h
    have hedge := asResolved_listOutcome symbols reader.scheme r d
    rw [heq] at hedge
    by_cases hpublishes : d.publishesEdge symbols = true
    · obtain ⟨edge, rfl⟩ := hedge.mpr hpublishes
      obtain ⟨x, -, -, hid, -⟩ : Publishes _ symbols r _ (.resolved edge) :=
        heq ▸ publishes_listOutcome
      have hget : (referenceIds reader m)[d.referenceIdx]? = some edge.reference := by
        rw [referenceIds, getElem?_map, hr, hid, map_some]
      have hsome : (resolved edge).asResolved = some edge := rfl
      rw [filterMap_cons_some hsome, filter_cons_of_pos hpublishes]
      simp only [map_cons, ih, hget]
    · have hnone : e.asResolved = none := by
        rw [Option.eq_none_iff_forall_ne_some]
        intro edge hsome
        exact hpublishes (hedge.mp ⟨edge, asResolved_eq_some.mp hsome⟩)
      rw [filterMap_cons_none hnone, filter_cons_of_neg hpublishes, ih]

/-- The condition on the decisions is the one on their entries. -/
theorem restorable_iff
    (h : decisions.mapM (entryOf reader.scheme symbols (references reader m)) = some entries) :
    Restorable symbols decisions ↔ ((ofEntries entries).resolved.map (·.reference)).Nodup ∧
        (∀ edge ∈ (ofEntries entries).resolved, edge.evidence ≠ .nameMatch) ∧
          ∀ c ∈ (ofEntries entries).candidates, c.targets ≠ [] := by
  have hall := forall₂_of_mapM h
  have honce : ((decisions.filter (·.publishesEdge symbols)).map (·.referenceIdx)).Nodup ↔
      ((ofEntries entries).resolved.map (·.reference)).Nodup := by
    have hmap := references_of_edges hall
    have hsome := nodup_map_iff (l := (entries.filterMap (·.asResolved)).map (·.reference))
      (Option.some_injective ReferenceId)
    rw [ofEntries, ← hsome, hmap]
    refine ⟨fun hnodup => hnodup.map_on ?_, Nodup.of_map _⟩
    intro i hi j hj heq
    have hvalid : ∀ k ∈ (decisions.filter (·.publishesEdge symbols)).map (·.referenceIdx),
        ∃ id, (referenceIds reader m)[k]? = some id := by
      intro k hk
      obtain ⟨d, hd, rfl⟩ := mem_map.mp hk
      obtain ⟨e, -, he⟩ := exists_of_forall₂ hall (mem_of_mem_filter hd)
      obtain ⟨r, hr, -⟩ := map_eq_some_iff.mp he
      exact ⟨r.id, by rw [referenceIds, getElem?_map, hr, map_some]⟩
    obtain ⟨id, hid⟩ := hvalid i hi
    exact eq_of_getElem?_ids (referenceIds_nodup reader m) hid (heq ▸ hid)
  constructor
  · intro hr
    refine ⟨honce.mp hr.once, fun edge hedge => ?_, fun c hc => ?_⟩
    · obtain ⟨e, he, hsome⟩ := mem_filterMap.mp hedge
      obtain ⟨d, hd, hentry⟩ := exists_left_of_forall₂ hall he
      obtain ⟨r, -, heq⟩ := map_eq_some_iff.mp hentry
      rw [asResolved_eq_some.mp hsome] at heq
      obtain ⟨x, hx, -, -, hevidence⟩ : Publishes _ symbols r _ (.resolved edge) :=
        heq ▸ publishes_listOutcome
      rw [hevidence]
      exact hr.evidence d hd ((asResolved_listOutcome symbols reader.scheme r d).mp ⟨edge, heq⟩) x hx
    · obtain ⟨e, he, hsome⟩ := mem_filterMap.mp hc
      obtain ⟨d, hd, hentry⟩ := exists_left_of_forall₂ hall he
      obtain ⟨r, -, heq⟩ := map_eq_some_iff.mp hentry
      rw [asCandidate_eq_some.mp hsome] at heq
      obtain ⟨x, -, htargets, hx | hne⟩ : Publishes _ symbols r _ (.candidate c) :=
        heq ▸ publishes_listOutcome
      · rw [htargets]
        exact hr.targets d hd _ x hx
      · exact hne
  · rintro ⟨hnodup, hevidence, htargets⟩
    refine ⟨honce.mpr hnodup, fun d hd hpublishes x hx => ?_, fun d hd reason x hx => ?_⟩
    · obtain ⟨e, he, hentry⟩ := exists_of_forall₂ hall hd
      obtain ⟨r, -, heq⟩ := map_eq_some_iff.mp hentry
      obtain ⟨edge, hedge⟩ := (asResolved_listOutcome symbols reader.scheme r d).mpr hpublishes
      obtain ⟨x', hx', -, -, hev⟩ : Publishes _ symbols r _ (.resolved edge) :=
        hedge ▸ publishes_listOutcome
      obtain rfl : x = x' := ReferenceOutcome.unique.inj (hx.symm.trans hx')
      rw [← hev]
      refine hevidence edge (mem_filterMap.mpr ⟨e, he, ?_⟩)
      rw [asResolved_eq_some, ← heq, hedge]
    · obtain ⟨e, he, hentry⟩ := exists_of_forall₂ hall hd
      obtain ⟨r, -, heq⟩ := map_eq_some_iff.mp hentry
      rw [hx, listOutcome] at heq
      exact htargets _ (mem_filterMap.mpr ⟨e, he, asCandidate_eq_some.mpr heq.symm⟩)

/-- The restored decisions are published as the snapshot they were restored from, up to the order
of each list, if and only if the decisions behind the snapshot meet `Restorable`. -/
theorem restore_lossless_iff (reader : RecordReader) (m : CodeIndexMaterial)
    (symbols : SymbolOrdinalCatalog) (decisions : List EvidencedDecision)
    (snapshot : RestorableSnapshot)
    (h : publish reader.scheme symbols (references reader m) decisions = some snapshot) :
    ∃ restored, publish reader.scheme symbols (references reader m)
        (decisionsFromSnapshot reader.scheme symbols (references reader m) snapshot) =
          some restored ∧ (restored.Same snapshot ↔ Restorable symbols decisions) := by
  rw [publish, projectLists_eq, Option.map_map, map_eq_some_iff] at h
  obtain ⟨entries, hentries, rfl⟩ := h
  obtain ⟨entries', hentries', hsame⟩ := restored_same_iff (isListed_of_mapM hentries)
  refine ⟨(LinkageLists.ofEntries entries').intoSnapshot, ?_, ?_⟩
  · rw [publish, projectLists_eq, Function.comp_apply, hentries']
    rfl
  · rw [Function.comp_apply, hsame, restorable_iff hentries]

/-- One edge, to the symbol of ordinal 0. -/
def oneEdge (evidence : ResolutionEvidence) : List EvidencedDecision :=
  [⟨⟨0, 0⟩, 0, .unique ⟨.global, evidence, OrdSet.insert 0 ∅⟩⟩]

def oneSymbol : SymbolOrdinalCatalog := SymbolOrdinalCatalog.empty.bindId 0 ⟨1, 0⟩

theorem restore_lossless_exact : ∃ snapshot restored,
    publish plainReader.scheme oneSymbol (references plainReader (twoFiles "util.py" .python))
        (oneEdge .exactBinding) = some snapshot ∧
      publish plainReader.scheme oneSymbol (references plainReader (twoFiles "util.py" .python))
        (decisionsFromSnapshot plainReader.scheme oneSymbol
          (references plainReader (twoFiles "util.py" .python)) snapshot) = some restored ∧
      restored.Same snapshot := by
  obtain ⟨snapshot, hsnapshot⟩ : ∃ snapshot, publish plainReader.scheme oneSymbol
      (references plainReader (twoFiles "util.py" .python)) (oneEdge .exactBinding) =
        some snapshot := ⟨_, rfl⟩
  obtain ⟨restored, hrestored, hsame⟩ := restore_lossless_iff _ _ _ _ snapshot hsnapshot
  refine ⟨snapshot, restored, hsnapshot, hrestored, hsame.mpr ⟨?_, ?_, ?_⟩⟩
  · exact List.Pairwise.sublist (filter_sublist.map _) (pairwise_singleton _ _)
  · rintro d hd - x hx
    obtain rfl := mem_singleton.mp hd
    obtain rfl := ReferenceOutcome.unique.inj hx
    simp
  · intro d hd reason x hx
    obtain rfl := mem_singleton.mp hd
    simp at hx

/-- Two edges of one reference come back as one. -/
theorem restore_lossless_twoEdges : ¬∀ (reader : RecordReader) (m : CodeIndexMaterial)
    (symbols : SymbolOrdinalCatalog) (decisions : List EvidencedDecision) snapshot restored,
    publish reader.scheme symbols (references reader m) decisions = some snapshot →
      publish reader.scheme symbols (references reader m)
        (decisionsFromSnapshot reader.scheme symbols (references reader m) snapshot) =
          some restored → restored.Same snapshot := by
  intro hall
  have hsame := hall plainReader (twoFiles "util.py" .python) oneSymbol
    (oneEdge .exactBinding ++ oneEdge .exactBinding) _ _ rfl rfl
  exact absurd hsame.resolved.length_eq (by decide)

end RoundTrip

end CodeMoniker
