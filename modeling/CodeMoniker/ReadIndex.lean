import CodeMoniker.Linkage

/-!
# The linkage read index

Posting lists over the published linkage, from which traversals read. `Postings` maps a key
to a set of references, and a fold of insertions holds exactly the inserted pairs
(`Postings.mem_insertAll`). `LinkageReadIndex.fromSnapshotWithCatalog` builds every table of
the index; the lemmas after it say what each table holds in terms of the records and the
resolved edges.
-/

namespace CodeMoniker

open List Option

/-! ## Posting maps -/

/-- A map from keys to sets of references. -/
abbrev Postings (κ : Type) [DecidableEq κ] := AList fun _ : κ => ReferenceSet

namespace Postings

variable {κ : Type} [DecidableEq κ]

def get (m : Postings κ) (k : κ) : ReferenceSet := (m.lookup k).getD ∅

/-- `entry(k).or_default().insert(r)`. -/
def insertRef (m : Postings κ) (k : κ) (r : ReferenceOrdinal) : Postings κ :=
  m.insert k ((m.get k).insert r)

@[simp] theorem get_empty (k : κ) : (∅ : Postings κ).get k = ∅ := by
  simp [get]

theorem mem_get_insertRef {m : Postings κ} {k k' : κ} {r r' : ReferenceOrdinal} :
    r' ∈ (m.insertRef k r).get k' ↔ k' = k ∧ r' = r ∨ r' ∈ m.get k' := by
  by_cases hk : k' = k
  · subst hk
    simp [insertRef, get]
  · simp [insertRef, get, hk]

/-- A loop over `xs` that inserts a reference for some of them. -/
def insertAll {α : Type} (f : α → Option (κ × ReferenceOrdinal)) (xs : List α) : Postings κ :=
  xs.foldl (fun m x => match f x with
    | some (k, r) => m.insertRef k r
    | none => m) ∅

theorem mem_foldl_insertRef {α : Type} (f : α → Option (κ × ReferenceOrdinal)) {k : κ}
    {r : ReferenceOrdinal} : ∀ (xs : List α) (m : Postings κ),
    r ∈ (xs.foldl (fun m x => match f x with
      | some (k, r) => m.insertRef k r
      | none => m) m).get k ↔ r ∈ m.get k ∨ ∃ x ∈ xs, f x = some (k, r)
  | [], m => by simp
  | x :: xs, m => by
    rw [foldl_cons, mem_foldl_insertRef f xs]
    cases hf : f x with
    | none => simp [hf]
    | some p =>
      obtain ⟨k', r'⟩ := p
      simp only [mem_get_insertRef, exists_mem_cons_iff, hf, Option.some.injEq, Prod.mk.injEq]
      rw [eq_comm (a := k), eq_comm (a := r)]
      tauto

@[simp] theorem mem_insertAll {α : Type} {f : α → Option (κ × ReferenceOrdinal)} {xs : List α}
    {k : κ} {r : ReferenceOrdinal} : r ∈ (insertAll f xs).get k ↔ ∃ x ∈ xs, f x = some (k, r) := by
  simpa [insertAll] using mem_foldl_insertRef f xs ∅

theorem mem_get {m : Postings κ} {k : κ} {r : ReferenceOrdinal} :
    r ∈ m.get k ↔ ∃ s, m.lookup k = some s ∧ r ∈ s := by
  unfold get
  cases hl : m.lookup k with
  | none => simp
  | some s => simp

theorem exists_mem_values {m : Postings κ} {r : ReferenceOrdinal} :
    (∃ s ∈ m.entries.map (·.2), r ∈ s) ↔ ∃ k, r ∈ m.get k := by
  refine ⟨fun ⟨s, hs, hr⟩ => ?_, fun ⟨k, hr⟩ => ?_⟩
  · obtain ⟨e, he, rfl⟩ := List.mem_map.mp hs
    exact ⟨e.1, mem_get.mpr ⟨e.2, AList.mem_lookup_iff.mpr he, hr⟩⟩
  · obtain ⟨s, hl, hr⟩ := mem_get.mp hr
    exact ⟨s, List.mem_map.mpr ⟨⟨k, s⟩, AList.mem_lookup_iff.mp hl, rfl⟩, hr⟩

end Postings

/-- References by symbol and relation. -/
abbrev TraversalReferenceIndex := SymbolOrdinal → Postings String

def insertTraversalReference (index : TraversalReferenceIndex) (symbol : SymbolOrdinal)
    (relation : String) (reference : ReferenceOrdinal) : TraversalReferenceIndex :=
  Function.update index symbol ((index symbol).insertRef relation reference)

theorem mem_insertTraversalReference {index : TraversalReferenceIndex} {s s' : SymbolOrdinal}
    {k k' : String} {r r' : ReferenceOrdinal} :
    r' ∈ (insertTraversalReference index s k r s').get k' ↔
      s' = s ∧ k' = k ∧ r' = r ∨ r' ∈ (index s').get k' := by
  unfold insertTraversalReference
  by_cases hs : s' = s
  · subst hs
    simp [Postings.mem_get_insertRef]
  · simp [hs]

/-- A loop over `xs` that inserts a reference for some of them. -/
def insertAllTraversal {α : Type} (f : α → Option (SymbolOrdinal × String × ReferenceOrdinal))
    (xs : List α) : TraversalReferenceIndex :=
  xs.foldl (fun index x => match f x with
    | some (s, k, r) => insertTraversalReference index s k r
    | none => index) fun _ => ∅

theorem mem_foldl_insertTraversal {α : Type}
    (f : α → Option (SymbolOrdinal × String × ReferenceOrdinal)) {s : SymbolOrdinal} {k : String}
    {r : ReferenceOrdinal} : ∀ (xs : List α) (index : TraversalReferenceIndex),
    r ∈ (xs.foldl (fun index x => match f x with
      | some (s, k, r) => insertTraversalReference index s k r
      | none => index) index s).get k ↔ r ∈ (index s).get k ∨ ∃ x ∈ xs, f x = some (s, k, r)
  | [], index => by simp
  | x :: xs, index => by
    rw [foldl_cons, mem_foldl_insertTraversal f xs]
    cases hf : f x with
    | none => simp [hf]
    | some p =>
      obtain ⟨s', k', r'⟩ := p
      simp only [mem_insertTraversalReference, exists_mem_cons_iff, hf, Option.some.injEq,
        Prod.mk.injEq]
      rw [eq_comm (a := s), eq_comm (a := k), eq_comm (a := r)]
      tauto

@[simp] theorem mem_insertAllTraversal {α : Type}
    {f : α → Option (SymbolOrdinal × String × ReferenceOrdinal)} {xs : List α}
    {s : SymbolOrdinal} {k : String} {r : ReferenceOrdinal} :
    r ∈ (insertAllTraversal f xs s).get k ↔ ∃ x ∈ xs, f x = some (s, k, r) := by
  simpa [insertAllTraversal] using mem_foldl_insertTraversal f xs fun _ => ∅

/-- The postings of the given relations, or of all of them when none is given. -/
def referencePostingsForRelations (byRelation : Postings String) (relations : List String) :
    List ReferenceSet :=
  if relations = [] then byRelation.entries.map (·.2) else relations.filterMap byRelation.lookup

/-- No relation in the list admits every relation. -/
def AdmitsRelation (relations : List String) (kind : String) : Prop :=
  relations = [] ∨ kind ∈ relations

instance (relations : List String) (kind : String) : Decidable (AdmitsRelation relations kind) :=
  inferInstanceAs (Decidable (_ ∨ _))

theorem admitsRelation_congr {rs rs' : List String} (h : ∀ k, k ∈ rs ↔ k ∈ rs')
    (k : String) : AdmitsRelation rs k ↔ AdmitsRelation rs' k := by
  have hnil : rs = [] ↔ rs' = [] := by
    simp only [eq_nil_iff_forall_not_mem, h]
  rw [AdmitsRelation, AdmitsRelation, hnil, h]

theorem exists_mem_referencePostings {m : Postings String} {relations : List String}
    {r : ReferenceOrdinal} : (∃ p ∈ referencePostingsForRelations m relations, r ∈ p) ↔
      ∃ k, AdmitsRelation relations k ∧ r ∈ m.get k := by
  unfold referencePostingsForRelations AdmitsRelation
  split_ifs with h
  · subst h
    simpa only [true_or, true_and] using Postings.exists_mem_values (m := m)
  · simp only [mem_filterMap, h, false_or, Postings.mem_get]
    refine ⟨fun ⟨p, ⟨k, hk, hl⟩, hr⟩ => ⟨k, hk, p, hl, hr⟩, fun ⟨k, hk, p, hl, hr⟩ => ?_⟩
    exact ⟨p, ⟨k, hk, hl⟩, hr⟩

/-! ## Classification -/

variable (referenceIds : List ReferenceId)

/-- The position of an id in the increasing list of ids. -/
def referenceOrdinal (id : ReferenceId) :
    Option ReferenceOrdinal :=
  referenceIds.findIdx? (· = id)

theorem referenceOrdinal_eq_some {ids : List ReferenceId} (hnd : ids.Nodup) {id : ReferenceId}
    {r : ReferenceOrdinal} : referenceOrdinal ids id = some r ↔ ids[r]? = some id := by
  unfold referenceOrdinal
  rw [findIdx?_eq_some_iff_getElem]
  refine ⟨fun ⟨hlt, heq, _⟩ => ?_, fun h => ?_⟩
  · rw [getElem?_eq_getElem hlt]
    simpa using heq
  · obtain ⟨hlt, heq⟩ := List.getElem?_eq_some_iff.mp h
    refine ⟨hlt, by simpa using heq, fun j hj => ?_⟩
    simp only [decide_eq_true_eq]
    intro hjeq
    have hji : j = r := (Nodup.getElem_inj_iff hnd).mp (hjeq.trans heq.symm)
    omega

/-- The references a decision of each class names, with the reasons given. -/
structure ReferenceClassificationIndex where
  resolved : ReferenceSet
  external : ReferenceSet
  candidate : ReferenceSet
  dynamic : ReferenceSet
  manifestBlocked : ReferenceSet
  unresolved : ReferenceSet
  candidateReasons : ReferenceOrdinal → Option String
  dynamicReasons : ReferenceOrdinal → Option String
  unresolvedReasons : ReferenceOrdinal → Option String

namespace ReferenceClassificationIndex

/-- The ordinals of a list of reference ids. -/
def ordinals (ids : List ReferenceId) : ReferenceSet :=
  OrdSet.ofList (ids.filterMap (referenceOrdinal referenceIds))

/-- The last reason given for each ordinal. -/
def reasons (entries : List (ReferenceId × String)) :
    ReferenceOrdinal → Option String :=
  entries.foldl (fun m e => match referenceOrdinal referenceIds e.1 with
    | some r => Function.update m r (some e.2)
    | none => m) fun _ => none

def fromLinkage (linkage : LinkageSnapshot) (referenceIds : List ReferenceId) :
    ReferenceClassificationIndex :=
  let manifestBlocked := (linkage.blocked ++ linkage.manifestBlocked).filter
    (·.reason = .manifestBlocked)
  let unresolved := linkage.unresolved ++ linkage.blocked.filter (·.reason ≠ .manifestBlocked)
  { resolved := ordinals referenceIds (linkage.resolved.map (·.reference))
    external := ordinals referenceIds (linkage.external.map (·.reference))
    candidate := ordinals referenceIds (linkage.candidates.map (·.reference))
    dynamic := ordinals referenceIds (linkage.dynamic.map (·.reference))
    manifestBlocked := ordinals referenceIds (manifestBlocked.map (·.reference))
    unresolved := ordinals referenceIds (unresolved.map (·.reference))
    candidateReasons := reasons referenceIds
      (linkage.candidates.map fun c => (c.reference, c.reason.asStr))
    dynamicReasons := reasons referenceIds
      (linkage.dynamic.map fun d => (d.reference, d.reason.asStr))
    unresolvedReasons := reasons referenceIds
      (unresolved.map fun u => (u.reference, u.reason.asStr)) }

variable (c : ReferenceClassificationIndex)

def candidateReason (r : ReferenceOrdinal) : String :=
  (c.candidateReasons r).getD "unclassified"

def dynamicReason (r : ReferenceOrdinal) : String :=
  (c.dynamicReasons r).getD "unclassified"

def unresolvedReason (r : ReferenceOrdinal) : String :=
  (c.unresolvedReasons r).getD "unclassified"

theorem mem_ordinals {referenceIds ids : List ReferenceId} (hnd : referenceIds.Nodup)
    {r : ReferenceOrdinal} :
    r ∈ ordinals referenceIds ids ↔ ∃ id ∈ ids, referenceIds[r]? = some id := by
  simp [ordinals, referenceOrdinal_eq_some hnd]

end ReferenceClassificationIndex

/-! ## The read index -/

structure LinkageReadIndex where
  symbols : SymbolOrdinalCatalog
  referenceIds : List ReferenceId
  sourceOrdinals : List (Option SymbolOrdinal)
  targetOrdinals : List (Option SymbolOrdinal)
  referencesWithoutSource : ReferenceSet
  referencesWithoutTarget : ReferenceSet
  sourceRootsByFile : List ℕ
  referencesBySourceFile : Postings ℕ
  referencesByTargetFile : Postings ℕ
  referencesBySourceRoot : Postings ℕ
  referencesByTargetRoot : Postings ℕ
  outgoing : TraversalReferenceIndex
  incomingByOrdinal : TraversalReferenceIndex
  classifications : ReferenceClassificationIndex

namespace LinkageReadIndex

/-- `index_references` : every reference under its source symbol and relation. -/
def indexOutgoing (references : ReferenceTable) (symbols : SymbolOrdinalCatalog) :
    TraversalReferenceIndex :=
  insertAllTraversal (fun x =>
    (symbols.ordinal x.1.sourceSymbol).map fun source => (source, x.1.kind, x.2))
    references.iter.zipIdx

/-- The reference an edge resolves and the symbol it resolves to, where both are known. -/
def resolvedEnds (symbols : SymbolOrdinalCatalog)
    (edge : LinkageEdge) : Option (ReferenceOrdinal × SymbolOrdinal) :=
  match referenceOrdinal referenceIds edge.reference, symbols.ordinal edge.target with
  | some reference, some target => some (reference, target)
  | _, _ => none

/-- `index_resolved_edges`, the target of every resolved reference. -/
def indexTargets (symbols : SymbolOrdinalCatalog)
    (edges : List LinkageEdge) : List (Option SymbolOrdinal) :=
  edges.foldl (fun targets edge =>
    match resolvedEnds referenceIds symbols edge with
    | some (reference, target) => targets.set reference (some target)
    | none => targets) (List.replicate referenceIds.length none)

/-- `index_resolved_edges`, every resolved reference under its target and relation. -/
def indexIncoming (references : ReferenceTable) (referenceIds : List ReferenceId)
    (symbols : SymbolOrdinalCatalog) (edges : List LinkageEdge) : TraversalReferenceIndex :=
  insertAllTraversal (fun edge =>
    (resolvedEnds referenceIds symbols edge).bind fun ends =>
      (references.reference edge.reference).map fun reference =>
        (ends.2, reference.kind, ends.1)) edges

/-- The references whose endpoint is missing. -/
def missing (endpoints : List (Option SymbolOrdinal)) : ReferenceSet :=
  OrdSet.ofList ((endpoints.zipIdx.filter (·.1 = none)).map (·.2))

/-- The file of an endpoint. -/
def endpointFile (symbols : SymbolOrdinalCatalog) (endpoint : Option SymbolOrdinal) : Option ℕ :=
  (endpoint.bind symbols.id).map (·.file)

/-- References by the file of one endpoint. -/
def byFile (symbols : SymbolOrdinalCatalog) (endpoints : List (Option SymbolOrdinal)) :
    Postings ℕ :=
  Postings.insertAll (fun x => (endpointFile symbols x.1).map fun file => (file, x.2))
    endpoints.zipIdx

/-- References by the source root of one endpoint's file. -/
def byRoot (symbols : SymbolOrdinalCatalog) (sourceRootsByFile : List ℕ)
    (endpoints : List (Option SymbolOrdinal)) : Postings ℕ :=
  Postings.insertAll (fun x =>
    ((endpointFile symbols x.1).bind fun file => sourceRootsByFile[file]?).map
      fun root => (root, x.2)) endpoints.zipIdx

def fromSnapshotWithCatalog (linkage : LinkageSnapshot) (references : ReferenceTable)
    (symbols : SymbolOrdinalCatalog) (sourceRootsByFile : List ℕ) : LinkageReadIndex :=
  let referenceIds := references.iter.map (·.id)
  let sourceOrdinals := references.iter.map fun r => symbols.ordinal r.sourceSymbol
  let targetOrdinals := indexTargets referenceIds symbols linkage.resolved
  { symbols := symbols
    referenceIds := referenceIds
    sourceOrdinals := sourceOrdinals
    targetOrdinals := targetOrdinals
    referencesWithoutSource := missing sourceOrdinals
    referencesWithoutTarget := missing targetOrdinals
    sourceRootsByFile := sourceRootsByFile
    referencesBySourceFile := byFile symbols sourceOrdinals
    referencesByTargetFile := byFile symbols targetOrdinals
    referencesBySourceRoot := byRoot symbols sourceRootsByFile sourceOrdinals
    referencesByTargetRoot := byRoot symbols sourceRootsByFile targetOrdinals
    outgoing := indexOutgoing references symbols
    incomingByOrdinal := indexIncoming references referenceIds symbols linkage.resolved
    classifications := ReferenceClassificationIndex.fromLinkage linkage referenceIds }

def ordinal (index : LinkageReadIndex) (symbol : SymbolId) : Option SymbolOrdinal :=
  index.symbols.ordinal symbol

variable (index : LinkageReadIndex)

def symbol (o : SymbolOrdinal) : Option SymbolId := index.symbols.id o

def incomingPostings (o : SymbolOrdinal) (relations : List String) :
    List ReferenceSet :=
  referencePostingsForRelations (index.incomingByOrdinal o) relations

def outgoingPostings (o : SymbolOrdinal) (relations : List String) :
    List ReferenceSet :=
  referencePostingsForRelations (index.outgoing o) relations

def referenceId (r : ReferenceOrdinal) : Option ReferenceId :=
  index.referenceIds[r]?

def referenceSource (r : ReferenceOrdinal) : Option SymbolOrdinal :=
  (index.sourceOrdinals[r]?).join

def referenceTarget (r : ReferenceOrdinal) : Option SymbolOrdinal :=
  (index.targetOrdinals[r]?).join

/-! ## What the tables hold -/

section Contents

variable {linkage : LinkageSnapshot} {references : ReferenceTable} {symbols : SymbolOrdinalCatalog}
  {roots : List ℕ} {r : ReferenceOrdinal}

theorem getElem?_ids {id : ReferenceId} :
    (references.iter.map (·.id))[r]? = some id ↔ ∃ rec, references.iter[r]? = some rec ∧ rec.id = id := by
  simp

theorem resolvedEnds_eq_some {edge : LinkageEdge} {t : SymbolOrdinal} :
    resolvedEnds (references.iter.map (·.id)) symbols edge = some (r, t) ↔
      (∃ rec, references.iter[r]? = some rec ∧ rec.id = edge.reference) ∧
        symbols.ordinal edge.target = some t := by
  rw [← getElem?_ids, ← referenceOrdinal_eq_some references.ids_nodup]
  unfold resolvedEnds
  split
  · next r' t' hr ht => simp [hr, ht]
  · next hno =>
    simp only [reduceCtorEq, false_iff, not_and]
    exact fun hr ht => hno r t hr ht

theorem slot_of_resolvedEnds {ids : List ReferenceId} (hids : ids.Nodup) {edge : LinkageEdge}
    {t : SymbolOrdinal} (h : resolvedEnds ids symbols edge = some (r, t)) :
    ids[r]? = some edge.reference := by
  unfold resolvedEnds at h
  split at h
  · next hr _ =>
    obtain ⟨rfl, -⟩ := by simpa using h
    exact (referenceOrdinal_eq_some hids).mp hr
  · cases h

/-- No two edges write to one slot. -/
theorem indexTargets_fold {ids : List ReferenceId} (hids : ids.Nodup) {t : SymbolOrdinal} :
    ∀ (edges : List LinkageEdge) (targets : List (Option SymbolOrdinal)),
      (edges.map (·.reference)).Nodup → targets.length = ids.length →
      ((edges.foldl (fun targets edge => match resolvedEnds ids symbols edge with
        | some (reference, target) => targets.set reference (some target)
        | none => targets) targets)[r]?.join = some t ↔
        (∃ e ∈ edges, resolvedEnds ids symbols e = some (r, t)) ∨
          (∀ e ∈ edges, ∀ t', resolvedEnds ids symbols e ≠ some (r, t')) ∧
            targets[r]?.join = some t)
  | [], targets, _, _ => by simp
  | edge :: edges, targets, hnd, hlen => by
    simp only [map_cons, nodup_cons, List.mem_map, not_exists, not_and] at hnd
    obtain ⟨hfresh, hnd⟩ := hnd
    rw [foldl_cons]
    cases hedge : resolvedEnds ids symbols edge with
    | none =>
      rw [indexTargets_fold hids edges targets hnd hlen]
      simp [hedge]
    | some p =>
      obtain ⟨r', t'⟩ := p
      have hslot := slot_of_resolvedEnds hids hedge
      rw [indexTargets_fold hids edges _ hnd (by simpa using hlen)]
      simp only [exists_mem_cons_iff, forall_mem_cons, hedge, ne_eq, Option.some.injEq,
        Prod.mk.injEq]
      by_cases hr : r' = r
      · subst hr
        have hlt : r' < targets.length := by
          rw [hlen]
          exact (List.getElem?_eq_some_iff.mp hslot).1
        have hnone : ∀ e ∈ edges, ∀ x, ¬resolvedEnds ids symbols e = some (r', x) := by
          intro e he x heq
          have hsame := hslot.symm.trans (slot_of_resolvedEnds hids heq)
          exact hfresh e he (some.inj hsame).symm
        have hno : ¬∃ e ∈ edges, resolvedEnds ids symbols e = some (r', t) :=
          fun ⟨e, he, h⟩ => hnone e he t h
        simpa [hno, hlt] using fun _ => hnone
      · simp [hr]

theorem length_indexTargets (ids : List ReferenceId) (edges : List LinkageEdge) :
    (indexTargets ids symbols edges).length = ids.length := by
  have h : ∀ (edges : List LinkageEdge) (targets : List (Option SymbolOrdinal)),
      (edges.foldl (fun targets edge =>
        match resolvedEnds ids symbols edge with
        | some (reference, target) => targets.set reference (some target)
        | none => targets) targets).length = targets.length := by
    intro edges
    induction edges with
    | nil => simp
    | cons edge edges ih =>
      intro targets
      rw [foldl_cons, ih]
      split <;> simp
  rw [indexTargets, h, length_replicate]

theorem referenceId_eq_some {id : ReferenceId} :
    (fromSnapshotWithCatalog linkage references symbols roots).referenceId r = some id ↔
      ∃ rec, references.iter[r]? = some rec ∧ rec.id = id := getElem?_ids

variable {o : SymbolOrdinal}

theorem referenceSource_eq_some :
    (fromSnapshotWithCatalog linkage references symbols roots).referenceSource r = some o ↔
      ∃ rec, references.iter[r]? = some rec ∧ symbols.ordinal rec.sourceSymbol = some o := by
  simp [referenceSource, fromSnapshotWithCatalog, join_eq_some_iff]

theorem referenceTarget_eq_some :
    (fromSnapshotWithCatalog linkage references symbols roots).referenceTarget r = some o ↔
      ∃ rec e, references.iter[r]? = some rec ∧ e ∈ linkage.resolved ∧ rec.id = e.reference ∧
        symbols.ordinal e.target = some o := by
  have h := @indexTargets_fold symbols r _ references.ids_nodup o linkage.resolved
    (replicate (references.iter.map (·.id)).length none) linkage.resolved_nodup (by simp)
  have hinit : ((replicate (references.iter.map (·.id)).length
      (none : Option SymbolOrdinal))[r]?).join ≠ some o := by
    simp [getElem?_replicate, join_eq_some_iff]
  simp only [hinit, and_false, or_false] at h
  unfold referenceTarget fromSnapshotWithCatalog indexTargets
  rw [h]
  simp only [resolvedEnds_eq_some]
  refine ⟨fun ⟨e, he, ⟨rec, hrec, hid⟩, ht⟩ => ⟨rec, e, hrec, he, hid, ht⟩, ?_⟩
  rintro ⟨rec, e, hrec, he, hid, ht⟩
  exact ⟨e, he, ⟨rec, hrec, hid⟩, ht⟩

theorem mem_resolved :
    r ∈ (fromSnapshotWithCatalog linkage references symbols roots).classifications.resolved ↔
      ∃ rec e, references.iter[r]? = some rec ∧ e ∈ linkage.resolved ∧ rec.id = e.reference := by
  have h := @ReferenceClassificationIndex.mem_ordinals _ (linkage.resolved.map (·.reference))
    references.ids_nodup r
  unfold fromSnapshotWithCatalog ReferenceClassificationIndex.fromLinkage
  simp only [h, List.mem_map, getElem?_ids]
  refine ⟨?_, ?_⟩
  · rintro ⟨_, ⟨e, he, rfl⟩, rec, hrec, hid⟩
    exact ⟨rec, e, hrec, he, hid⟩
  · rintro ⟨rec, e, hrec, he, hid⟩
    exact ⟨_, ⟨e, he, rfl⟩, rec, hrec, hid⟩

/-- A reference stands under its source symbol. -/
theorem exists_mem_outgoingPostings {relations : List String} :
    (∃ p ∈ (fromSnapshotWithCatalog linkage references symbols roots).outgoingPostings o relations,
      r ∈ p) ↔ ∃ rec, references.iter[r]? = some rec ∧ symbols.ordinal rec.sourceSymbol = some o ∧
        AdmitsRelation relations rec.kind := by
  unfold outgoingPostings
  rw [exists_mem_referencePostings]
  have h : ∀ k, r ∈ ((fromSnapshotWithCatalog linkage references symbols roots).outgoing o).get k ↔
      ∃ rec, references.iter[r]? = some rec ∧ symbols.ordinal rec.sourceSymbol = some o ∧
        rec.kind = k := by
    intro k
    unfold fromSnapshotWithCatalog indexOutgoing
    simp only [mem_insertAllTraversal, Prod.exists, mem_zipIdx_iff_getElem?, map_eq_some_iff, Prod.mk.injEq]
    refine ⟨?_, ?_⟩
    · rintro ⟨rec, i, hrec, s, hs, rfl, hk, rfl⟩
      exact ⟨rec, hrec, hs, hk⟩
    · rintro ⟨rec, hrec, hs, hk⟩
      exact ⟨rec, r, hrec, o, hs, rfl, hk, rfl⟩
  refine ⟨?_, ?_⟩
  · rintro ⟨k, hk, hr⟩
    obtain ⟨rec, hrec, hs, rfl⟩ := (h k).mp hr
    exact ⟨rec, hrec, hs, hk⟩
  · rintro ⟨rec, hrec, hs, hk⟩
    exact ⟨rec.kind, hk, (h _).mpr ⟨rec, hrec, hs, rfl⟩⟩

/-- A resolved reference stands under its target symbol. -/
theorem exists_mem_incomingPostings {relations : List String} :
    (∃ p ∈ (fromSnapshotWithCatalog linkage references symbols roots).incomingPostings o relations,
      r ∈ p) ↔
      ∃ rec e, references.iter[r]? = some rec ∧ e ∈ linkage.resolved ∧ rec.id = e.reference ∧
        symbols.ordinal e.target = some o ∧ AdmitsRelation relations rec.kind := by
  unfold incomingPostings
  rw [exists_mem_referencePostings]
  have h : ∀ k, r ∈ ((fromSnapshotWithCatalog linkage references symbols
      roots).incomingByOrdinal o).get k ↔
      ∃ rec e, references.iter[r]? = some rec ∧ e ∈ linkage.resolved ∧ rec.id = e.reference ∧
        symbols.ordinal e.target = some o ∧ rec.kind = k := by
    intro k
    unfold fromSnapshotWithCatalog indexIncoming
    simp only [mem_insertAllTraversal, bind_eq_some_iff, Prod.exists,
      map_eq_some_iff, Prod.mk.injEq]
    refine ⟨?_, ?_⟩
    · rintro ⟨e, he, r', t, hends, rec, hrec, rfl, hk, rfl⟩
      obtain ⟨⟨rec', hrec', hid⟩, ht⟩ := resolvedEnds_eq_some.mp hends
      rw [← hid, ReferenceTable.reference_of_mem (mem_of_getElem? hrec')] at hrec
      obtain rfl := some.inj hrec
      exact ⟨rec', e, hrec', he, hid, ht, hk⟩
    · rintro ⟨rec, e, hrec, he, hid, ht, hk⟩
      refine ⟨e, he, r, o, resolvedEnds_eq_some.mpr ⟨⟨rec, hrec, hid⟩, ht⟩, rec, ?_, rfl, hk, rfl⟩
      rw [← hid, ReferenceTable.reference_of_mem (mem_of_getElem? hrec)]
  refine ⟨?_, ?_⟩
  · rintro ⟨k, hk, hr⟩
    obtain ⟨rec, e, hrec, he, hid, ht, rfl⟩ := (h k).mp hr
    exact ⟨rec, e, hrec, he, hid, ht, hk⟩
  · rintro ⟨rec, e, hrec, he, hid, ht, hk⟩
    exact ⟨rec.kind, hk, (h _).mpr ⟨rec, e, hrec, he, hid, ht, rfl⟩⟩

variable {endpoints : List (Option SymbolOrdinal)}

theorem mem_missing : r ∈ missing endpoints ↔ endpoints[r]? = some none := by
  simp [missing, mem_zipIdx_iff_getElem?]

theorem mem_byFile {file : ℕ} : r ∈ (byFile symbols endpoints).get file ↔
      ∃ o id, endpoints[r]?.join = some o ∧ symbols.id o = some id ∧ id.file = file := by
  simp only [byFile, Postings.mem_insertAll, Prod.exists, mem_zipIdx_iff_getElem?, map_eq_some_iff, Prod.mk.injEq, endpointFile,
    bind_eq_some_iff, join_eq_some_iff]
  refine ⟨?_, ?_⟩
  · rintro ⟨_, i, hi, f, ⟨id, ⟨o, rfl, hid⟩, hf⟩, rfl, rfl⟩
    exact ⟨o, id, hi, hid, hf⟩
  · rintro ⟨o, id, hi, hid, hf⟩
    exact ⟨some o, r, hi, file, ⟨id, ⟨o, rfl, hid⟩, hf⟩, rfl, rfl⟩

theorem mem_byRoot {root : ℕ} : r ∈ (byRoot symbols roots endpoints).get root ↔
      ∃ o id, endpoints[r]?.join = some o ∧ symbols.id o = some id ∧
        roots[id.file]? = some root := by
  simp only [byRoot, Postings.mem_insertAll, Prod.exists, mem_zipIdx_iff_getElem?, map_eq_some_iff, Prod.mk.injEq, endpointFile,
    bind_eq_some_iff, join_eq_some_iff]
  refine ⟨?_, ?_⟩
  · rintro ⟨_, i, hi, f, ⟨_, ⟨id, ⟨o, rfl, hid⟩, rfl⟩, hf⟩, rfl, rfl⟩
    exact ⟨o, id, hi, hid, hf⟩
  · rintro ⟨o, id, hi, hid, hf⟩
    exact ⟨some o, r, hi, root, ⟨_, ⟨id, ⟨o, rfl, hid⟩, rfl⟩, hf⟩, rfl, rfl⟩

/-- A reference of the table has a target or is listed as missing one. -/
theorem mem_referencesWithoutTarget {rec : ReferenceRecord} (hrec : references.iter[r]? = some rec) :
    r ∈ (fromSnapshotWithCatalog linkage references symbols roots).referencesWithoutTarget ↔
      (fromSnapshotWithCatalog linkage references symbols roots).referenceTarget r = none := by
  have hlt : r < references.iter.length := (List.getElem?_eq_some_iff.mp hrec).1
  unfold referenceTarget fromSnapshotWithCatalog
  rw [mem_missing]
  have hlt' : r < (indexTargets (references.iter.map (·.id)) symbols linkage.resolved).length := by
    rw [length_indexTargets, length_map]
    exact hlt
  rw [getElem?_eq_getElem hlt']
  simp

end Contents

end LinkageReadIndex

end CodeMoniker
