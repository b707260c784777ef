import CodeMoniker.IdentityTree
import CodeMoniker.QueryRequests

/-!
# Coupling metrics

`metrics.coupling` counts the references from one scope of identities to another. It scans the
files of the symbols of the first scope, and selects the references whose anchor lies in it. An
anchor stands in the file of its reference, so no other file holds such a reference
(`countP_scanned`). The counters are updated on different exits of the loop
(`countReference`), and `metricsCoupling_counts` says what they add up to.
-/

namespace CodeMoniker

open List Query
open Fragments (trimChars)

/-! ## Unlinked references -/

structure UnlinkedRefs where
  external : ℕ := 0
  sdk : ℕ := 0
  dependency : ℕ := 0
  injectedExternal : ℕ := 0
  unknownExternal : ℕ := 0
  candidate : ℕ := 0
  dynamic : ℕ := 0
  manifestBlocked : ℕ := 0
  unresolved : ℕ := 0
  unresolvedReasons : OrdMap String ℕ := ∅

namespace UnlinkedRefs

variable (u : UnlinkedRefs)

/-- The references of all classes. -/
def total : ℕ :=
  u.external + u.candidate + u.dynamic + u.manifestBlocked + u.unresolved

def addOrigin : ExternalReferenceOrigin → UnlinkedRefs
  | .sdk => { u with sdk := u.sdk + 1 }
  | .dependency => { u with dependency := u.dependency + 1 }
  | .injected => { u with injectedExternal := u.injectedExternal + 1 }
  | .unknownExternal => { u with unknownExternal := u.unknownExternal + 1 }

def addReason (reason : String) : UnlinkedRefs :=
  { u with unresolvedReasons := u.unresolvedReasons.update reason 0 (· + 1) }

end UnlinkedRefs

def IdentitySnapshot.unresolvedReason (s : IdentitySnapshot) (reference : ReferenceId) : String :=
  ((s.linkage.unresolved.find? fun u => u.reference = reference).map (·.reason.asStr)).getD
    "unclassified"

/-- `UnlinkedClassifier::tally`. -/
def IdentitySnapshot.tally (s : IdentitySnapshot) (reference : ReferenceId) (u : UnlinkedRefs) :
    UnlinkedRefs :=
  if reference ∈ s.linkage.external.map (·.reference) then
    { u with external := u.external + 1 }.addOrigin (s.origin reference)
  else if reference ∈ s.linkage.candidates.map (·.reference) then
    { u with candidate := u.candidate + 1 }
  else if reference ∈ s.linkage.dynamic.map (·.reference) then
    { u with dynamic := u.dynamic + 1 }
  else if reference ∈ (s.linkage.blocked ++ s.linkage.manifestBlocked).map (·.reference) then
    { u with manifestBlocked := u.manifestBlocked + 1 }
  else
    { u with unresolved := u.unresolved + 1 }.addReason
      (s.unresolvedReason reference)

theorem sum_values_update {κ : Type} [LinearOrder κ] (m : OrdMap κ ℕ) (k : κ) :
    (m.update k 0 (· + 1)).values.sum = m.values.sum + 1 := by
  have hsum := OrdMap.sum_update id rfl (fun _ => rfl) m k (f := (· + 1))
  simpa only [map_id] using hsum

/-- So many references, and the subclasses add up. -/
structure UnlinkedRefs.Balanced (u : UnlinkedRefs) (n : ℕ) : Prop where
  total : u.total = n
  origins : u.external = u.sdk + u.dependency + u.injectedExternal + u.unknownExternal
  reasons : u.unresolvedReasons.values.sum = u.unresolved

theorem UnlinkedRefs.Balanced.empty : ({} : UnlinkedRefs).Balanced 0 := ⟨rfl, rfl, rfl⟩

theorem UnlinkedRefs.Balanced.tally {u : UnlinkedRefs} {n : ℕ} (h : u.Balanced n)
    (s : IdentitySnapshot) (reference : ReferenceId) : (s.tally reference u).Balanced (n + 1) := by
  obtain ⟨htotal, horigins, hreasons⟩ := h
  unfold UnlinkedRefs.total at htotal
  unfold IdentitySnapshot.tally
  split_ifs
  · cases s.origin reference <;>
      exact ⟨by simp only [addOrigin, UnlinkedRefs.total]; omega, by simp only [addOrigin]; omega,
        hreasons⟩
  · exact ⟨by simp only [UnlinkedRefs.total]; omega, horigins, hreasons⟩
  · exact ⟨by simp only [UnlinkedRefs.total]; omega, horigins, hreasons⟩
  · exact ⟨by simp only [UnlinkedRefs.total]; omega, horigins, hreasons⟩
  · refine ⟨by simp only [addReason, UnlinkedRefs.total]; omega, horigins, ?_⟩
    simp only [addReason, sum_values_update, hreasons]

/-! ## The loop over the references -/

structure CouplingCounts where
  sourceReferences : ℕ := 0
  resolvedSourceReferences : ℕ := 0
  references : ℕ := 0
  sameSymbolReferences : ℕ := 0
  sourceSymbols : Finset SymbolId := ∅
  targetSymbols : Finset SymbolId := ∅
  connections : Finset (SymbolId × SymbolId) := ∅
  byKind : OrdMap String ℕ := ∅
  byTarget : OrdMap (List Char) ℕ := ∅
  unlinked : UnlinkedRefs := {}

def admitsKind (relations : List (List Char)) (kind : String) : Bool :=
  relations = [] || kind.toList ∈ relations

section Loop

variable (s : IdentitySnapshot) (fromScope toScope : List Char) (relations : List (List Char))
  (c : CouplingCounts)

/-- A reference that links two symbols of the scopes. -/
def countLink (kind : String) (source target : IndexedSymbol) :
    CouplingCounts :=
  { c with
    references := c.references + 1
    sourceSymbols := insert source.id c.sourceSymbols
    targetSymbols := insert target.id c.targetSymbols
    connections := insert (source.id, target.id) c.connections
    byKind := c.byKind.update kind 0 (· + 1)
    byTarget :=
      if fromScope ≠ toScope then c.byTarget.update target.path 0 (· + 1) else c.byTarget }

/-- What the loop does with a reference whose source is in the scope. -/
def countSource (r : ReferenceRecord) (source : IndexedSymbol) :
    CouplingCounts :=
  let c := { c with sourceReferences := c.sourceReferences + 1 }
  match s.resolvedReferenceTarget r.id with
  | none => { c with unlinked := s.tally r.id c.unlinked }
  | some targetId =>
    let c := { c with resolvedSourceReferences := c.resolvedSourceReferences + 1 }
    match s.navigableAnchor targetId with
    | none => c
    | some target =>
      if !identityInScope target.path toScope then c
      else if source.id = target.id then
        { c with sameSymbolReferences := c.sameSymbolReferences + 1 }
      else countLink fromScope toScope c r.kind source target

/-- The body of the loop. -/
def countReference (r : ReferenceRecord) : CouplingCounts :=
  match s.navigableAnchor r.sourceSymbol with
  | none => c
  | some source =>
    if !identityInScope source.path fromScope then c
    else if !admitsKind relations r.kind then c
    else countSource s fromScope toScope c r source

/-- The files that hold a shown symbol of the scope. -/
def sourceFiles : OrdSet ℕ :=
  .ofList ((s.symbols.iter.filter fun symbol =>
    symbol.navigable && identityInScope symbol.path fromScope).map (·.id.file))

def scannedReferences : List ReferenceRecord :=
  (sourceFiles s fromScope).elems.flatMap s.references.fileRecords

def couplingCounts : CouplingCounts :=
  (scannedReferences s fromScope).foldl (countReference s fromScope toScope relations) {}

end Loop

/-! ## The response -/

structure GitRevision where
  branch : String
  commit : String
  dirty : Bool
  deriving DecidableEq

structure MetricsCouplingResult where
  fromScope : List Char
  toScope : List Char
  relation : List (List Char)
  snapshot : List Char
  git : Option GitRevision
  exportRequested : Bool
  exportRecorded : Bool
  references : ℕ
  connections : ℕ
  sourceSymbols : ℕ
  targetSymbols : ℕ
  sameSymbolReferences : ℕ
  sourceReferences : ℕ
  resolvedSourceReferences : ℕ
  byKind : List (String × ℕ)
  byTarget : List (List Char × ℕ)
  unlinked : UnlinkedRefs

/-- What the response takes from outside of the snapshot. -/
structure CouplingEnv where
  gitRevision : String → Option GitRevision
  recordCouplingMetrics : MetricsCouplingResult → Bool

def couplingGitRevision (env : CouplingEnv) (roots : List String) : Option GitRevision := do
  let revisions ← roots.mapM env.gitRevision
  let first ← revisions.head?
  if revisions.any (· ≠ first) then none else some first

def snapshotLabel (snapshot : Option (List Char)) : List Char :=
  ((snapshot.map trimChars).filter (· ≠ [])).getD "current".toList

def couplingResult (c : CouplingCounts) (query : MetricsCouplingQuery) (git : Option GitRevision) :
    MetricsCouplingResult where
  fromScope := scopeOf query.from_
  toScope := scopeOf query.to_
  relation := query.relation
  snapshot := snapshotLabel query.snapshot
  git
  exportRequested := query.export_
  exportRecorded := false
  references := c.references
  connections := c.connections.card
  sourceSymbols := c.sourceSymbols.card
  targetSymbols := c.targetSymbols.card
  sameSymbolReferences := c.sameSymbolReferences
  sourceReferences := c.sourceReferences
  resolvedSourceReferences := c.resolvedSourceReferences
  byKind := c.byKind.entries
  byTarget := c.byTarget.entries
  unlinked := c.unlinked

def metricsCouplingResponse (env : CouplingEnv) (s : IdentitySnapshot) (roots : List String)
    (query : MetricsCouplingQuery) : Except QueryError MetricsCouplingResult := do
  let selected ← selectedRoots roots query.workspace
  let git := couplingGitRevision env selected
  requireKnownIdentityPrefix s roots (scopeOf query.from_)
  requireKnownIdentityPrefix s roots (scopeOf query.to_)
  let c := couplingCounts s (scopeOf query.from_) (scopeOf query.to_) query.relation
  let result := couplingResult c query git
  return if result.exportRequested then
    { result with exportRecorded := env.recordCouplingMetrics result } else result

/-! ## What is counted -/

section Counted

variable (s : IdentitySnapshot) (fromScope toScope : List Char) (relations : List (List Char))

/-- The shown symbol around the target that a reference is resolved to. -/
def targetAnchor (r : ReferenceRecord) : Option IndexedSymbol :=
  (s.resolvedReferenceTarget r.id).bind s.navigableAnchor

/-- A reference of an admitted relation links a symbol of the one scope with another symbol, of
the other scope. -/
def couples (r : ReferenceRecord) : Bool :=
  admitsKind relations r.kind && (s.navigableAnchor r.sourceSymbol).any fun source =>
    identityInScope source.path fromScope && (targetAnchor s r).any fun target =>
      identityInScope target.path toScope && source.id ≠ target.id

/-- The counters after some references. -/
structure Counted (refs : List ReferenceRecord) (c : CouplingCounts) : Prop where
  references : c.references = refs.countP (couples s fromScope toScope relations)
  byKind : c.byKind.values.sum = c.references
  byTarget : fromScope ≠ toScope → c.byTarget.values.sum = c.references
  resolved : c.resolvedSourceReferences ≤ c.sourceReferences
  unlinked : c.unlinked.Balanced (c.sourceReferences - c.resolvedSourceReferences)

variable {s fromScope toScope relations} {refs : List ReferenceRecord} {c : CouplingCounts}

section

variable (h : Counted s fromScope toScope relations refs c)

include h

/-- A reference that does not couple the scopes leaves its counters alone. -/
theorem Counted.skip {r : ReferenceRecord} (hr : couples s fromScope toScope relations r = false) :
    Counted s fromScope toScope relations (refs ++ [r]) c :=
  { h with references := by simpa [hr] using h.references }

theorem Counted.countSource {r : ReferenceRecord} {source : IndexedSymbol}
    (hsource : s.navigableAnchor r.sourceSymbol = some source)
    (hscope : identityInScope source.path fromScope = true)
    (hkind : admitsKind relations r.kind = true) :
    Counted s fromScope toScope relations (refs ++ [r])
      (countSource s fromScope toScope c r source) := by
  obtain ⟨hreferences, hbyKind, hbyTarget, hresolved, hunlinked⟩ := h
  have hcouples : couples s fromScope toScope relations r =
      (targetAnchor s r).any fun target =>
        identityInScope target.path toScope && source.id ≠ target.id := by
    simp [couples, hsource, hscope, hkind]
  have hcount : (refs ++ [r]).countP (couples s fromScope toScope relations) = _ :=
    countP_append
  rw [countP_singleton, hcouples, targetAnchor] at hcount
  unfold CodeMoniker.countSource
  dsimp only
  cases htarget : s.resolvedReferenceTarget r.id with
  | none =>
    rw [htarget] at hcount
    refine ⟨hreferences.trans hcount.symm, hbyKind, hbyTarget, by dsimp only; omega, ?_⟩
    have hstep := hunlinked.tally s r.id
    rwa [show c.sourceReferences - c.resolvedSourceReferences + 1 =
      c.sourceReferences + 1 - c.resolvedSourceReferences by omega] at hstep
  | some targetId =>
    rw [htarget, Option.bind_some] at hcount
    have hsame : c.sourceReferences + 1 - (c.resolvedSourceReferences + 1) =
        c.sourceReferences - c.resolvedSourceReferences := by omega
    dsimp only
    cases hanchor : s.navigableAnchor targetId with
    | none =>
      rw [hanchor] at hcount
      exact ⟨hreferences.trans hcount.symm, hbyKind, hbyTarget, by dsimp only; omega,
        hsame ▸ hunlinked⟩
    | some target =>
      rw [hanchor, Option.any_some] at hcount
      dsimp only
      split_ifs with hin heq
      · rw [Bool.not_eq_true'] at hin
        simp only [hin, Bool.false_and, Bool.false_eq_true, if_false] at hcount
        exact ⟨hreferences.trans hcount.symm, hbyKind, hbyTarget, by dsimp only; omega,
          hsame ▸ hunlinked⟩
      · simp only [heq, ne_eq, not_true_eq_false, decide_false, Bool.and_false,
          Bool.false_eq_true, if_false] at hcount
        exact ⟨hreferences.trans hcount.symm, hbyKind, hbyTarget, by dsimp only; omega,
          hsame ▸ hunlinked⟩
      · rw [Bool.not_eq_true', Bool.not_eq_false] at hin
        simp only [hin, ne_eq, heq, not_false_eq_true, decide_true, Bool.and_self, if_true]
          at hcount
        refine ⟨?_, ?_, fun hne => ?_, by simp only [countLink]; omega, hsame ▸ hunlinked⟩
        · simp only [countLink, hreferences]
          exact hcount.symm
        · simp only [countLink, sum_values_update, hbyKind]
        · simp only [countLink, if_pos hne, sum_values_update, hbyTarget hne]

/-- One round of the loop. -/
theorem Counted.countReference
    (r : ReferenceRecord) : Counted s fromScope toScope relations (refs ++ [r])
      (countReference s fromScope toScope relations c r) := by
  unfold CodeMoniker.countReference
  cases hsource : s.navigableAnchor r.sourceSymbol with
  | none => exact h.skip (by simp [couples, hsource])
  | some source =>
    dsimp only
    split_ifs with hscope hkind
    · rw [Bool.not_eq_true'] at hscope
      exact h.skip (by simp [couples, hsource, hscope])
    · rw [Bool.not_eq_true'] at hkind
      exact h.skip (by simp [couples, hkind])
    · rw [Bool.not_eq_true', Bool.not_eq_false] at hscope hkind
      exact h.countSource hsource hscope hkind

end

/-- The whole loop. -/
theorem counted_foldl (s : IdentitySnapshot) (fromScope toScope : List Char)
    (relations : List (List Char)) (refs : List ReferenceRecord) :
    Counted s fromScope toScope relations refs
      (refs.foldl (countReference s fromScope toScope relations) {}) := by
  induction refs using reverseRecOn with
  | nil => exact ⟨rfl, rfl, fun _ => rfl, le_rfl, .empty⟩
  | append_singleton refs r ih =>
    rw [foldl_append, foldl_cons, foldl_nil]
    exact ih.countReference r

end Counted

/-! ## The files that are scanned -/

/-- The elements under some keys, taken key by key. -/
theorem perm_flatMap_filter {α κ : Type} [DecidableEq κ] (key : α → κ) (l : List α) :
    ∀ {keys : List κ}, keys.Nodup →
      (keys.flatMap fun k => l.filter (key · = k)).Perm (l.filter (key · ∈ keys))
  | [], _ => by simp
  | k :: keys, h => by
    obtain ⟨hk, hkeys⟩ := nodup_cons.mp h
    have hsplit := filter_append_perm (key · = k) (l.filter (key · ∈ k :: keys))
    have hfirst : (l.filter (key · ∈ k :: keys)).filter (key · = k) = l.filter (key · = k) := by
      rw [filter_filter]
      refine filter_congr fun a _ => ?_
      by_cases ha : key a = k <;> simp [ha]
    have hrest : (l.filter (key · ∈ k :: keys)).filter (fun a => !decide (key a = k)) =
        l.filter (key · ∈ keys) := by
      rw [filter_filter]
      refine filter_congr fun a _ => ?_
      by_cases ha : key a = k
      · simp [ha, hk]
      · simp [ha]
    rw [hfirst, hrest] at hsplit
    exact ((perm_flatMap_filter key l hkeys).append_left _).trans hsplit

/-- The shards hold the references of their file. -/
theorem filter_file_shards : ∀ (n : ℕ) (shards : List (List ReferenceRecord)) (i : ℕ),
    SlotAligned n shards → shards.flatten.filter (·.id.file = n + i) = (shards[i]?).getD []
  | _, [], _, _ => by simp
  | n, shard :: shards, i, ⟨hids, hrest⟩ => by
    have hhead := ReferenceTable.file_of_mem_shard hids
    have hlater := (ReferenceTable.sorted_of_slotAligned (n + 1) shards hrest).2
    rw [flatten_cons, filter_append]
    cases i with
    | zero =>
      have hall : shard.filter (·.id.file = n + 0) = shard :=
        filter_eq_self.mpr fun r hr => by simp [hhead r hr]
      have hnone : shards.flatten.filter (·.id.file = n + 0) = [] :=
        filter_eq_nil_iff.mpr fun r hr => by
          have hle := hlater r hr
          rw [decide_eq_true_eq]
          omega
      rw [hall, hnone, append_nil]
      rfl
    | succ i =>
      have hnone : shard.filter (·.id.file = n + (i + 1)) = [] :=
        filter_eq_nil_iff.mpr fun r hr => by
          rw [hhead r hr, decide_eq_true_eq]
          omega
      have ih := filter_file_shards (n + 1) shards i hrest
      rw [hnone, nil_append, show n + (i + 1) = n + 1 + i by omega, ih]
      rfl

theorem ReferenceTable.filter_file (t : ReferenceTable) (f : ℕ) :
    t.iter.filter (·.id.file = f) = t.fileRecords f := by
  have h := filter_file_shards 0 t.shards f t.slotAligned
  rwa [Nat.zero_add] at h

/-- The restriction to the scanned files loses no reference that couples the scopes. -/
theorem countP_scanned (s : IdentitySnapshot) (fromScope toScope : List Char)
    (relations : List (List Char)) :
    (scannedReferences s fromScope).countP (couples s fromScope toScope relations) =
      s.references.iter.countP (couples s fromScope toScope relations) := by
  have hperm := perm_flatMap_filter (fun r : ReferenceRecord => r.id.file) s.references.iter
    (sourceFiles s fromScope).nodup
  simp only [ReferenceTable.filter_file] at hperm
  rw [scannedReferences, hperm.countP_eq, countP_filter]
  refine countP_congr fun r hr => ?_
  rw [Bool.and_eq_true, decide_eq_true_eq]
  refine ⟨And.left, fun h => ⟨h, ?_⟩⟩
  obtain ⟨source, hsource, hlinks⟩ :=
    (Option.any_eq_true _ _).mp (Bool.and_eq_true_iff.mp h).2
  obtain ⟨hmem, hshown⟩ := s.mem_navigableAnchor hsource
  refine OrdSet.mem_ofList.mpr (mem_map.mpr ⟨source, mem_filter.mpr ⟨hmem, ?_⟩, ?_⟩)
  · exact Bool.and_eq_true_iff.mpr ⟨hshown, (Bool.and_eq_true_iff.mp hlinks).1⟩
  · exact s.file_navigableAnchor hr hsource

/-! ## The response -/

/-- The references of the response are those of the whole index that couple the scopes. Their
kinds add up to them, and so do their targets if the scopes differ. Every reference from the
source scope is resolved or in a class of the unlinked ones. -/
theorem metricsCoupling_counts (env : CouplingEnv) (s : IdentitySnapshot) (roots : List String)
    (query : MetricsCouplingQuery) {result : MetricsCouplingResult}
    (h : metricsCouplingResponse env s roots query = .ok result) :
    result.references = s.references.iter.countP
      (couples s result.fromScope result.toScope query.relation) ∧
    (result.byKind.map (·.2)).sum = result.references ∧
    (result.fromScope ≠ result.toScope → (result.byTarget.map (·.2)).sum = result.references) ∧
    result.sourceReferences = result.resolvedSourceReferences + result.unlinked.total := by
  obtain ⟨hreferences, hbyKind, hbyTarget, hresolved, hunlinked⟩ :=
    counted_foldl s (scopeOf query.from_) (scopeOf query.to_) query.relation
      (scannedReferences s (scopeOf query.from_))
  rw [countP_scanned] at hreferences
  have htotal := hunlinked.total
  unfold metricsCouplingResponse at h
  obtain ⟨selected, -, h⟩ := ByteCodec.bind_eq_ok.mp h
  obtain ⟨-, -, h⟩ := ByteCodec.bind_eq_ok.mp h
  obtain ⟨-, -, h⟩ := ByteCodec.bind_eq_ok.mp h
  have hresult := Except.ok.inj h
  split_ifs at hresult <;> subst hresult
  · exact ⟨hreferences, hbyKind, hbyTarget, by
      simp only [couplingResult, couplingCounts]
      omega⟩
  · exact ⟨hreferences, hbyKind, hbyTarget, by
      simp only [couplingResult, couplingCounts]
      omega⟩

/-- A class of one file, as a symbol of its index. -/
def coupledClass (file : ℕ) (identity : String) : IndexedSymbol where
  byteRange := none
  id := ⟨file, 0⟩
  source := file
  identity
  name := "A"
  kind := "class"
  visibility := ""
  signature := ""
  parent := none
  navigable := true
  lineRange := none

/-- Two files with one class each. The first class calls the second. -/
def coupledClasses : IdentitySnapshot where
  symbols :=
    { shards := [[coupledClass 0 "code+moniker://./dir:a/class:A"],
        [coupledClass 1 "code+moniker://./dir:b/class:A"]]
      placed := by
        intro f d s h
        match f, d, h with
        | 0, 0, h => obtain rfl := Option.some.inj h; simp [coupledClass]
        | 1, 0, h => obtain rfl := Option.some.inj h; simp [coupledClass] }
  sources := [⟨0, "a/A.java", "java"⟩, ⟨0, "b/A.java", "java"⟩]
  references := ⟨[[⟨⟨0, 0⟩, ⟨0, 0⟩, "code+moniker://./dir:b/class:A", "calls"⟩], []], by decide⟩
  linkage := ⟨[⟨⟨0, 0⟩, ⟨1, 0⟩⟩], [], [], [], [], [], by decide⟩
  origin _ := .unknownExternal
  readIndex := none
  parentsFirst := by simp [SymbolTable.iter, coupledClass]
  sourceFile := by simp [ReferenceTable.iter]
  sourced := rfl
  indexed := by simp

def couplingOfClasses : Except QueryError MetricsCouplingResult :=
  metricsCouplingResponse ⟨fun _ => none, fun _ => false⟩ coupledClasses ["/app"]
    ⟨none, "dir:a".toList, "dir:b".toList, [], none, false⟩

theorem metricsCoupling_counts_coupledClasses : ∃ result, couplingOfClasses = .ok result ∧
    result.references = coupledClasses.references.iter.countP
      (couples coupledClasses result.fromScope result.toScope []) := by
  have hok : couplingOfClasses.toBool = true := by decide
  cases hresult : couplingOfClasses with
  | error e =>
    rw [hresult] at hok
    exact nomatch hok
  | ok result => exact ⟨result, rfl, (metricsCoupling_counts _ _ _ _ hresult).1⟩

end CodeMoniker
