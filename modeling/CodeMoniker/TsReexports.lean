import CodeMoniker.CopyPasses
import CodeMoniker.PythonBindings

/-!
# External re-exports of TypeScript

A module that re-exports a name of a package makes it a name of its own. `seedAliases` records the
re-exports that are decided as external under the module and the name that they export, and
`propagateAliases` hands what is recorded on to the re-exports that request such a name, pass after
pass, until a pass changes nothing. Then the references to the recorded names are decided anew.

A pass overwrites what is recorded. So it is a pass of copies along edges, one edge for each
re-export, from the name that it requests to the name that it exports (`reexportEdges`), and it
comes to rest exactly when the copied bindings agree (`refineExternalReexports_done_iff`). Two
re-exports of one name that are handed different bindings keep it from coming to rest.
-/

namespace CodeMoniker

open List hiding after
open Function
open Option

namespace Ts

open ByteCodec FuelLoops CopyPasses

abbrev BindingKey := Moniker × Bytes

abbrev ExternalBinding := ExternalReferenceOrigin × Moniker

abbrev Aliases := AList fun _ : BindingKey => ExternalBinding

def bindingKey (target : Moniker) : Option BindingKey := do
  let segment ← target.segments.getLast?
  return (← target.parent, bareCallableName segment.name)

def exportedBindingKey (m : CodeIndexMaterial) (r : IndexedReference) : Option BindingKey := do
  let owner ← (m.symbolMoniker r.sourceSymbol).join
  let lastName := (m.referenceTarget r.id).bind fun target =>
    target.segments.getLast?.map fun segment => bareCallableName segment.name
  let name ← ((r.aliasName.filter (· ≠ "")).map byteString).or lastName
  return (owner, name)

/-- `none` is the panic of the builder. -/
def reexportTarget (aliasTarget requested : Moniker) : Option Moniker :=
  match aliasTarget.segments.getLast?, requested.segments.getLast? with
  | some aliasLast, some requestedLast =>
    if bareCallableName aliasLast.name ≠ bareCallableName requestedLast.name then some aliasTarget
    else
      match aliasTarget.parent with
      | none => some aliasTarget
      | some owner =>
        (MonikerBuilder.mk owner.project (owner.segments ++ [requestedLast])).tryMoniker.toOption
  | _, _ => some aliasTarget

/-- One turn of the first loop. -/
def seedAlias (m : CodeIndexMaterial) (aliases : Aliases)
    (row : EvidencedDecision × IndexedReference) : Aliases :=
  if row.2.kind ≠ "reexports" then aliases
  else
    match row.1.outcome with
    | .external origin target =>
      match target.or (m.referenceTarget row.2.id), exportedBindingKey m row.2 with
      | some target, some key => aliases.insert key (origin, target)
      | _, _ => aliases
    | _ => aliases

def seedAliases (m : CodeIndexMaterial) (rows : List (EvidencedDecision × IndexedReference)) :
    Aliases :=
  rows.foldl (seedAlias m) ∅

/-- The binding of the name that a reference requests. -/
def requestedBinding (m : CodeIndexMaterial) (aliases : Aliases) (r : IndexedReference) :
    Option ExternalBinding := do
  let requested ← m.referenceTarget r.id
  aliases.lookup (← bindingKey requested)

/-- One turn of the loop over the re-exports. -/
def propagateAlias (m : CodeIndexMaterial) (aliases : Aliases)
    (row : EvidencedDecision × IndexedReference) : Aliases × Bool :=
  if row.2.kind ≠ "reexports" then (aliases, false)
  else
    match requestedBinding m aliases row.2, exportedBindingKey m row.2 with
    | some target, some key =>
      (aliases.insert key target, decide (aliases.lookup key ≠ some target))
    | _, _ => (aliases, false)

def propagateAliases (m : CodeIndexMaterial) (rows : List (EvidencedDecision × IndexedReference)) :
    ℕ → Aliases → Run Aliases :=
  untilStable fun _ aliases => .done (sweep (propagateAlias m) aliases rows)

/-- What the last loop makes of a decision. `none` is a panic. -/
def rewriteDecision (m : CodeIndexMaterial) (aliases : Aliases)
    (changedReferences : Option (Finset ReferenceId)) (d : EvidencedDecision)
    (r : IndexedReference) : Option EvidencedDecision :=
  if ∃ changed ∈ changedReferences, d.reference ∉ changed then some d
  else
    match m.referenceTarget r.id, requestedBinding m aliases r with
    | some requested, some (origin, target) =>
      (reexportTarget target requested).map fun target =>
        ⟨r.id, d.referenceIdx, .external origin (some target)⟩
    | _, _ => some d

/-- One turn of the last loop. -/
def rewriteAt (m : CodeIndexMaterial) (aliases : Aliases)
    (changedReferences : Option (Finset ReferenceId)) (references : List IndexedReference)
    (decisions : List EvidencedDecision) (i : ℕ) : Option (List EvidencedDecision) := do
  let d ← decisions[i]?
  let r ← references[d.referenceIdx]?
  return decisions.set i (← rewriteDecision m aliases changedReferences d r)

/-- The decisions at some positions with their references. `none` is the panic on a position past
the end. -/
def decisionRows (decisions : List EvidencedDecision) (references : List IndexedReference)
    (decisionIndices : List ℕ) : Option (List (EvidencedDecision × IndexedReference)) :=
  decisionIndices.mapM fun i => do
    let d ← decisions[i]?
    return (d, ← references[d.referenceIdx]?)

/-- The first two loops read the same rows, so a position past the end stops the first one. -/
def refineExternalReexports (m : CodeIndexMaterial) (decisions : List EvidencedDecision)
    (references : List IndexedReference) (changedReferences : Option (Finset ReferenceId))
    (decisionIndices : List ℕ) (fuel : ℕ) : Run (List EvidencedDecision) :=
  match decisionRows decisions references decisionIndices with
  | none => .panic
  | some rows =>
    match propagateAliases m rows fuel (seedAliases m rows) with
    | .done aliases =>
      match decisionIndices.foldlM (rewriteAt m aliases changedReferences references) decisions with
      | some refined => .done refined
      | none => .panic
    | .panic => .panic
    | .running => .running

/-! ## The last loop -/

section Rewrite

variable (m : CodeIndexMaterial) (aliases : Aliases)
  (changedReferences : Option (Finset ReferenceId)) {references : List IndexedReference}
  {decisions : List EvidencedDecision}

/-- The parts come from monikers, so the builder takes them. -/
theorem reexportTarget_isSome (aliasTarget requested : Moniker) :
    (reexportTarget aliasTarget requested).isSome := by
  unfold reexportTarget
  split
  · next aliasLast requestedLast _ hlast =>
    split_ifs
    · rfl
    · split
      · rfl
      · next owner _ =>
        obtain ⟨project, segs, hp, hs, rfl⟩ := Moniker.exists_parts owner
        obtain ⟨_, others, _, hothers, rfl⟩ := Moniker.exists_parts requested
        rw [Moniker.segments_ofParts] at hlast
        rw [Moniker.project_ofParts, Moniker.segments_ofParts]
        have hall : ∀ s ∈ segs ++ [requestedLast], s.Admitted := by
          intro s hs'
          rcases mem_append.mp hs' with hs' | hs'
          · exact hs s hs'
          · rw [mem_singleton.mp hs']
            exact hothers _ (mem_of_getLast? hlast)
        rw [tryMoniker_ofParts hp hall]
        rfl
  · rfl

/-- The position of the reference stays. -/
theorem rewriteDecision_eq_some (d : EvidencedDecision) (r : IndexedReference) :
    ∃ d', rewriteDecision m aliases changedReferences d r = some d' ∧
      d'.referenceIdx = d.referenceIdx := by
  unfold rewriteDecision
  split_ifs
  · exact ⟨d, rfl, rfl⟩
  · split
    · next requested origin target _ _ =>
      obtain ⟨t, ht⟩ := isSome_iff_exists.mp (reexportTarget_isSome target requested)
      refine ⟨⟨r.id, d.referenceIdx, .external origin (some t)⟩, ?_, rfl⟩
      rw [ht, map_some]
    · exact ⟨d, rfl, rfl⟩

/-- Every position has a decision, and that has its reference. -/
def InRange (decisions : List EvidencedDecision) (references : List IndexedReference)
    (decisionIndices : List ℕ) : Prop :=
  ∀ i ∈ decisionIndices, ∃ d ∈ decisions[i]?, d.referenceIdx < references.length

theorem InRange.rewriteAt {decisionIndices : List ℕ}
    (h : InRange decisions references decisionIndices) {i : ℕ} (hi : i ∈ decisionIndices) :
    ∃ next, rewriteAt m aliases changedReferences references decisions i = some next ∧
      InRange next references decisionIndices := by
  obtain ⟨d, hd, hlt⟩ := h i hi
  obtain ⟨d', hd', hidx⟩ := rewriteDecision_eq_some m aliases changedReferences d
    references[d.referenceIdx]
  refine ⟨decisions.set i d', ?_, fun j hj => ?_⟩
  · rw [Ts.rewriteAt, Option.mem_def.mp hd]
    simp [getElem?_eq_getElem hlt, hd']
  · obtain ⟨e, he, hlt'⟩ := h j hj
    rw [getElem?_set]
    split_ifs with hij hlen
    · exact ⟨d', rfl, hidx ▸ hlt⟩
    · obtain ⟨hlen', -⟩ := List.getElem?_eq_some_iff.mp (Option.mem_def.mp hd)
      exact absurd hlen' hlen
    · exact ⟨e, he, hlt'⟩

theorem InRange.rewrite {decisionIndices : List ℕ} : ∀ {is : List ℕ}
    {decisions : List EvidencedDecision}, InRange decisions references decisionIndices →
    is ⊆ decisionIndices →
    (is.foldlM (Ts.rewriteAt m aliases changedReferences references) decisions).isSome
  | [], _, _, _ => rfl
  | i :: is, decisions, h, his => by
    obtain ⟨next, hnext, hrange⟩ := h.rewriteAt m aliases changedReferences
      (his mem_cons_self)
    rw [foldlM_cons, hnext]
    exact hrange.rewrite fun j hj => his (mem_cons_of_mem i hj)

theorem inRange_of_decisionRows : ∀ {decisionIndices : List ℕ}
    {rows : List (EvidencedDecision × IndexedReference)},
    decisionRows decisions references decisionIndices = some rows →
    InRange decisions references decisionIndices
  | [], _, _ => fun i hi => absurd hi not_mem_nil
  | i :: is, rows, h => by
    simp only [decisionRows, mapM_cons, bind_eq_bind, bind_eq_some_iff, Option.pure_def] at h
    obtain ⟨row, ⟨d, hd, r, hr, -⟩, rest, hrest, -⟩ := h
    intro j hj
    rcases mem_cons.mp hj with rfl | hj
    · obtain ⟨hlt, -⟩ := List.getElem?_eq_some_iff.mp hr
      exact ⟨d, hd, hlt⟩
    · exact inRange_of_decisionRows hrest j hj

end Rewrite

/-! ## The passes -/

section Passes

variable {m : CodeIndexMaterial} {aliases : Aliases}

/-- A re-export hands the binding of the name that it requests to the name that it exports. -/
def reexportEdge (m : CodeIndexMaterial) (row : EvidencedDecision × IndexedReference) :
    Option (BindingKey × BindingKey) :=
  if row.2.kind ≠ "reexports" then none
  else do
    let requested ← m.referenceTarget row.2.id
    return (← bindingKey requested, ← exportedBindingKey m row.2)

def reexportEdges (m : CodeIndexMaterial) (rows : List (EvidencedDecision × IndexedReference)) :
    List (BindingKey × BindingKey) :=
  rows.filterMap (reexportEdge m)

/-- What is recorded for a name. -/
def bindingOf (aliases : Aliases) (key : BindingKey) : Option ExternalBinding := aliases.lookup key

theorem bindingOf_insert (key : BindingKey) (target : ExternalBinding) :
    bindingOf (aliases.insert key target) =
      Function.update (bindingOf aliases) key (some target) := by
  ext1 k
  by_cases hk : k = key
  · rw [hk, update_self]
    exact AList.lookup_insert aliases
  · rw [update_of_ne hk]
    exact AList.lookup_insert_ne hk

theorem finite_bindingOf (aliases : Aliases) : {key | bindingOf aliases key ≠ none}.Finite := by
  refine (finite_toSet aliases.keys).subset fun key hkey => ?_
  exact AList.lookup_isSome.mp (isSome_iff_ne_none.mpr hkey)

/-- A turn of the loop does what the edge of its re-export does. -/
theorem propagateAlias_view (m : CodeIndexMaterial) (aliases : Aliases)
    (row : EvidencedDecision × IndexedReference) :
    (bindingOf (propagateAlias m aliases row).1, (propagateAlias m aliases row).2) =
      match reexportEdge m row with
      | none => (bindingOf aliases, false)
      | some e => copy (bindingOf aliases) e := by
  unfold propagateAlias reexportEdge requestedBinding
  split_ifs with hkind
  · rfl
  cases m.referenceTarget row.2.id with
  | none => rfl
  | some requested =>
    cases hrequested : bindingKey requested with
    | none => simp [hrequested]
    | some key =>
      cases exportedBindingKey m row.2 with
      | none => simp [hrequested]
      | some exported =>
        simp only [hrequested, copy, bind_eq_bind, bind_some, Option.pure_def]
        rw [show aliases.lookup key = bindingOf aliases key from rfl]
        cases bindingOf aliases key with
        | none => rfl
        | some target => exact Prod.ext (bindingOf_insert exported target) rfl

theorem sweep_propagateAlias_view (m : CodeIndexMaterial) : ∀ (aliases : Aliases)
    (rows : List (EvidencedDecision × IndexedReference)),
    (bindingOf (sweep (propagateAlias m) aliases rows).1,
        (sweep (propagateAlias m) aliases rows).2) =
      sweep copy (bindingOf aliases) (reexportEdges m rows)
  | _, [] => rfl
  | aliases, row :: rows => by
    have hstep := Prod.ext_iff.mp (propagateAlias_view m aliases row)
    have hrest := Prod.ext_iff.mp (sweep_propagateAlias_view m (propagateAlias m aliases row).1 rows)
    have hedges : reexportEdges m (row :: rows) =
        (match reexportEdge m row with
          | none => reexportEdges m rows
          | some e => e :: reexportEdges m rows) := by
      rw [reexportEdges, filterMap_cons]
      cases reexportEdge m row <;> rfl
    rw [hedges, sweep]
    dsimp only at hstep hrest ⊢
    rw [hrest.1, hrest.2]
    cases hedge : reexportEdge m row with
    | none =>
      rw [hedge] at hstep
      rw [hstep.1, hstep.2, Bool.false_or]
    | some e =>
      rw [hedge] at hstep
      rw [hstep.1, hstep.2, sweep]

theorem after_view (m : CodeIndexMaterial) (aliases : Aliases)
    (rows : List (EvidencedDecision × IndexedReference)) (n : ℕ) :
    bindingOf ((fun aliases => (sweep (propagateAlias m) aliases rows).1)^[n] aliases) =
      after (reexportEdges m rows) (bindingOf aliases) n := by
  induction n with
  | zero => rfl
  | succ n ih =>
    rw [iterate_succ_apply', after, ← ih]
    exact congrArg Prod.fst (sweep_propagateAlias_view m _ rows)

theorem propagateAliases_done_iff (m : CodeIndexMaterial) (aliases : Aliases)
    (rows : List (EvidencedDecision × IndexedReference)) :
    (∃ fuel result, propagateAliases m rows fuel aliases = .done result) ↔
      OriginsAgree (reexportEdges m rows) (bindingOf aliases) := by
  rw [← quiet_iff_originsAgree (finite_bindingOf aliases)]
  refine untilStable_done_iff.trans (exists_congr fun n => ?_)
  rw [← after_view, ← congrArg Prod.snd (sweep_propagateAlias_view m _ rows)]

end Passes

/-- The loop comes to a pass that changes nothing, and the refinement returns, exactly when every
position has its decision and its reference and, of the external re-exports that never get lost,
those that other re-exports link are bound to the same. -/
theorem refineExternalReexports_done_iff (m : CodeIndexMaterial)
    (decisions : List EvidencedDecision) (references : List IndexedReference)
    (changedReferences : Option (Finset ReferenceId)) (decisionIndices : List ℕ) :
    (∃ fuel refined, refineExternalReexports m decisions references changedReferences
        decisionIndices fuel = .done refined) ↔
      ∃ rows, decisionRows decisions references decisionIndices = some rows ∧
        OriginsAgree (reexportEdges m rows) (bindingOf (seedAliases m rows)) := by
  unfold refineExternalReexports
  cases hrows : decisionRows decisions references decisionIndices with
  | none => simp
  | some rows =>
    simp only [Option.some.injEq, exists_eq_left', ← propagateAliases_done_iff]
    refine exists_congr fun fuel => ⟨?_, ?_⟩
    · rintro ⟨refined, hrun⟩
      split at hrun
      · next aliases haliases => exact ⟨aliases, haliases⟩
      · cases hrun
      · cases hrun
    · rintro ⟨aliases, haliases⟩
      have hrange := inRange_of_decisionRows hrows
      obtain ⟨refined, hrefined⟩ := isSome_iff_exists.mp
        (hrange.rewrite m aliases changedReferences (List.Subset.refl _))
      exact ⟨refined, by rw [haliases]; simp only [hrefined]⟩

/-! ## Two modules that export one name

`index.ts` exports `x` from `./left` and from `./right`, and both have it from packages. -/

section Rivals

def namedSegment (s : String × String) : Segment := ⟨byteString s.1, byteString s.2⟩

def AdmittedPath (path : List (String × String)) : Prop := ∀ s ∈ path.map namedSegment, s.Admitted

instance (path : List (String × String)) : Decidable (AdmittedPath path) :=
  inferInstanceAs (Decidable (∀ s ∈ path.map namedSegment, s.Admitted))

def tsPath (path : List (String × String)) (h : AdmittedPath path) : Moniker :=
  .ofParts (byteString ".") (path.map namedSegment) admitted_dot h

def indexModule : Moniker := tsPath [("lang", "ts"), ("module", "index")] (by decide)

def leftModule : Moniker := tsPath [("lang", "ts"), ("module", "left")] (by decide)

def rightModule : Moniker := tsPath [("lang", "ts"), ("module", "right")] (by decide)

def leftMember : Moniker :=
  tsPath [("lang", "ts"), ("module", "left"), ("path", "x")] (by decide)

def rightMember : Moniker :=
  tsPath [("lang", "ts"), ("module", "right"), ("path", "x")] (by decide)

def alphaPackage : Moniker := tsPath [("external_pkg", "alpha")] (by decide)

def betaPackage : Moniker := tsPath [("external_pkg", "beta")] (by decide)

def alphaMember : Moniker := tsPath [("external_pkg", "alpha"), ("path", "x")] (by decide)

def betaMember : Moniker := tsPath [("external_pkg", "beta"), ("path", "x")] (by decide)

def reexportRecord (target : Moniker) : RefRecord where
  source := 0
  target := target
  kind := byteString "reexports"
  position := none
  receiverHint := []
  aliasName := []
  confidence := byteString "external"
  callName := []
  callArity := none
  binding := []

def tsFile (path : String) (root : Moniker) (targets : List Moniker) : IndexedSourceFile where
  sourceRoot := 0
  path := path
  lang := .ts
  graph := { CodeGraph.withRoot root (byteString "module") with
    refs := targets.map reexportRecord }

def rivalFiles : CodeIndexMaterial where
  slots :=
    [⟨tsFile "index.ts" indexModule [leftMember, rightMember], false⟩,
      ⟨tsFile "left.ts" leftModule [alphaMember], false⟩,
      ⟨tsFile "right.ts" rightModule [betaMember], false⟩]

def reexportReference (file reference : ℕ) (targetIdentity : String) : IndexedReference where
  id := ⟨file, reference⟩
  sourceSymbol := ⟨file, 0⟩
  targetIdentity := targetIdentity
  kind := "reexports"
  callName := none
  callArity := none
  confidence := some "external"
  receiver := none
  aliasName := none

def rivalReferences : List IndexedReference :=
  [reexportReference 0 0 "code+moniker://./lang:ts/module:left/path:x",
    reexportReference 0 1 "code+moniker://./lang:ts/module:right/path:x",
    reexportReference 1 0 "code+moniker://./external_pkg:alpha/path:x",
    reexportReference 2 0 "code+moniker://./external_pkg:beta/path:x"]

def rivalDecisions : List EvidencedDecision :=
  [⟨⟨0, 0⟩, 0, .unknown .noCandidate⟩, ⟨⟨0, 1⟩, 1, .unknown .noCandidate⟩,
    ⟨⟨1, 0⟩, 2, .external .dependency none⟩, ⟨⟨2, 0⟩, 3, .external .dependency none⟩]

def nameX (owner : Moniker) : BindingKey := (owner, byteString "x")

variable {path : List (String × String)}

theorem segments_tsPath (h : AdmittedPath path) :
    (tsPath path h).segments = path.map namedSegment :=
  Moniker.segments_ofParts admitted_dot h

/-- The segment of the name. -/
theorem getLast?_tsPath (h : AdmittedPath (path ++ [("path", "x")])) :
    (tsPath (path ++ [("path", "x")]) h).segments.getLast? =
      some ⟨byteString "path", byteString "x"⟩ := by
  rw [segments_tsPath, map_append]
  exact getLast?_concat

theorem bareCallableName_x : bareCallableName (byteString "x") = byteString "x" := by decide

theorem bindingKey_tsPath (h : AdmittedPath (path ++ [("path", "x")])) (h' : AdmittedPath path)
    (hshort : path.length + 1 < 2 ^ 16) :
    bindingKey (tsPath (path ++ [("path", "x")]) h) = some (nameX (tsPath path h')) := by
  have hproject : (tsPath (path ++ [("path", "x")]) h).project = byteString "." :=
    Moniker.project_ofParts admitted_dot h
  have hcount : (tsPath (path ++ [("path", "x")]) h).segmentCount.toNat = path.length + 1 := by
    rw [toNat_segmentCount, segments_tsPath, length_map, length_append,
      length_singleton, Nat.mod_eq_of_lt hshort]
  have hparent : (tsPath (path ++ [("path", "x")]) h).parent = some (tsPath path h') := by
    rw [Moniker.parent, hcount, if_neg (Nat.succ_ne_zero _), segments_tsPath, hproject,
      map_append, Nat.add_sub_cancel, take_left' (length_map _)]
    exact tryMoniker_ofParts admitted_dot h'
  rw [bindingKey, getLast?_tsPath, hparent]
  simp [bareCallableName_x, nameX]

def rivalRows : List (EvidencedDecision × IndexedReference) := rivalDecisions.zip rivalReferences

theorem decisionRows_rivals :
    decisionRows rivalDecisions rivalReferences [0, 1, 2, 3] = some rivalRows := rfl

/-- The name that a reference without alias exports. -/
theorem exportedBindingKey_member {r : IndexedReference} {owner : Moniker}
    (path : List (String × String)) (h : AdmittedPath (path ++ [("path", "x")]))
    (howner : rivalFiles.symbolMoniker r.sourceSymbol = some (some owner))
    (htarget : rivalFiles.referenceTarget r.id = some (tsPath (path ++ [("path", "x")]) h))
    (hname : r.aliasName = none) : exportedBindingKey rivalFiles r = some (nameX owner) := by
  rw [exportedBindingKey, howner, htarget, hname]
  simp [getLast?_tsPath, bareCallableName_x, nameX]

theorem reexportEdge_member {row : EvidencedDecision × IndexedReference} {owner : Moniker}
    (path : List (String × String)) (h : AdmittedPath (path ++ [("path", "x")]))
    (h' : AdmittedPath path) (hshort : path.length + 1 < 2 ^ 16) (hkind : row.2.kind = "reexports")
    (howner : rivalFiles.symbolMoniker row.2.sourceSymbol = some (some owner))
    (htarget : rivalFiles.referenceTarget row.2.id = some (tsPath (path ++ [("path", "x")]) h))
    (hname : row.2.aliasName = none) :
    reexportEdge rivalFiles row = some (nameX (tsPath path h'), nameX owner) := by
  rw [reexportEdge, if_neg (not_not.mpr hkind), htarget,
    exportedBindingKey_member path h howner htarget hname, bind_eq_bind, bind_some,
    bindingKey_tsPath h h' hshort]
  rfl

theorem reexportEdges_rivals : reexportEdges rivalFiles rivalRows =
    [(nameX leftModule, nameX indexModule), (nameX rightModule, nameX indexModule),
      (nameX alphaPackage, nameX leftModule), (nameX betaPackage, nameX rightModule)] := by
  have hleft : ∀ d s, reexportEdge rivalFiles (d, reexportReference 0 0 s) =
      some (nameX leftModule, nameX indexModule) := fun _ _ =>
    reexportEdge_member [("lang", "ts"), ("module", "left")] (by decide) (by decide) (by decide) rfl rfl rfl rfl
  have hright : ∀ d s, reexportEdge rivalFiles (d, reexportReference 0 1 s) =
      some (nameX rightModule, nameX indexModule) := fun _ _ =>
    reexportEdge_member [("lang", "ts"), ("module", "right")] (by decide) (by decide) (by decide) rfl rfl rfl rfl
  have halpha : ∀ d s, reexportEdge rivalFiles (d, reexportReference 1 0 s) =
      some (nameX alphaPackage, nameX leftModule) := fun _ _ =>
    reexportEdge_member [("external_pkg", "alpha")] (by decide) (by decide) (by decide) rfl rfl rfl rfl
  have hbeta : ∀ d s, reexportEdge rivalFiles (d, reexportReference 2 0 s) =
      some (nameX betaPackage, nameX rightModule) := fun _ _ =>
    reexportEdge_member [("external_pkg", "beta")] (by decide) (by decide) (by decide) rfl rfl rfl rfl
  simp only [reexportEdges, rivalRows, rivalDecisions, rivalReferences, zip_cons_cons,
    zip_nil_right, filterMap_cons, filterMap_nil, hleft, hright, halpha, hbeta]

theorem bindingOf_rivals : bindingOf (seedAliases rivalFiles rivalRows) =
    Function.update (Function.update (fun _ => none) (nameX leftModule)
      (some (.dependency, alphaMember))) (nameX rightModule) (some (.dependency, betaMember)) := by
  have hleft : ∀ s, exportedBindingKey rivalFiles (reexportReference 1 0 s) =
      some (nameX leftModule) := fun _ =>
    exportedBindingKey_member [("external_pkg", "alpha")] (by decide) rfl rfl rfl
  have hright : ∀ s, exportedBindingKey rivalFiles (reexportReference 2 0 s) =
      some (nameX rightModule) := fun _ =>
    exportedBindingKey_member [("external_pkg", "beta")] (by decide) rfl rfl rfl
  have halpha : ∀ s, rivalFiles.referenceTarget (reexportReference 1 0 s).id = some alphaMember :=
    fun _ => rfl
  have hbeta : ∀ s, rivalFiles.referenceTarget (reexportReference 2 0 s).id = some betaMember :=
    fun _ => rfl
  have hkind : ∀ f r s, (reexportReference f r s).kind = "reexports" := fun _ _ _ => rfl
  have hseeds : seedAliases rivalFiles rivalRows =
      ((∅ : Aliases).insert (nameX leftModule) (.dependency, alphaMember)).insert
        (nameX rightModule) (.dependency, betaMember) := by
    simp [seedAliases, rivalRows, rivalDecisions, rivalReferences, seedAlias, hleft, hright,
      halpha, hbeta, hkind]
  rw [hseeds, bindingOf_insert, bindingOf_insert]
  rfl

/-- No pass comes to change nothing : the two bindings of `x` overwrite each other in every one. -/
theorem refineExternalReexports_rivals :
    (decisionRows rivalDecisions rivalReferences [0, 1, 2, 3]).isSome ∧
      ¬∃ fuel refined, refineExternalReexports rivalFiles rivalDecisions rivalReferences none
        [0, 1, 2, 3] fuel = .done refined := by
  refine ⟨rfl, fun hdone => ?_⟩
  obtain ⟨rows, hrows, hagree⟩ := (refineExternalReexports_done_iff _ _ _ _ _).mp hdone
  obtain rfl : rivalRows = rows := some.inj (decisionRows_rivals.symm.trans hrows)
  rw [reexportEdges_rivals, bindingOf_rivals] at hagree
  generalize hs : Function.update (Function.update (fun _ => none) (nameX leftModule)
    (some (ExternalReferenceOrigin.dependency, alphaMember))) (nameX rightModule)
    (some (.dependency, betaMember)) = s at hagree
  have hleft : s (nameX leftModule) = some (.dependency, alphaMember) := by
    rw [← hs, update_of_ne (by decide), update_self]
  have hright : s (nameX rightModule) = some (.dependency, betaMember) := by
    rw [← hs, update_self]
  -- Nothing is recorded for the names of the packages, and nothing is copied to them.
  have halpha : s (nameX alphaPackage) = none := by
    rw [← hs, update_of_ne (by decide), update_of_ne (by decide)]
  have hbeta : s (nameX betaPackage) = none := by
    rw [← hs, update_of_ne (by decide), update_of_ne (by decide)]
  refine not_originsAgree_of_rivals (a := nameX leftModule) (b := nameX rightModule)
    (k := nameX indexModule) (by simp) (by simp) ?_ ?_ ?_ ?_ ?_ hagree
  · rw [hleft]
    exact some_ne_none _
  · rw [hright]
    exact some_ne_none _
  · rw [hleft, hright]
    decide
  · intro e he heq
    simp only [mem_cons, not_mem_nil, or_false] at he
    rcases he with rfl | rfl | rfl | rfl
    · exact absurd heq (by decide)
    · exact absurd heq (by decide)
    · exact not_reached halpha (by decide)
    · exact absurd heq (by decide)
  · intro e he heq
    simp only [mem_cons, not_mem_nil, or_false] at he
    rcases he with rfl | rfl | rfl | rfl
    · exact absurd heq (by decide)
    · exact absurd heq (by decide)
    · exact absurd heq (by decide)
    · exact not_reached hbeta (by decide)

end Rivals

end Ts

end CodeMoniker
