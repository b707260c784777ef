import CodeMoniker.PathRule

/-!
# Where a path rule fails

A rule that fails names a source symbol as its anchor, or gives a path that starts at one, or
neither (`evaluatePathRule_anchors`). It fails on empty selections if and only if it has
`require_non_empty` (`evaluatePathRule_empty`).
-/

namespace CodeMoniker

namespace PathRuleContext

variable {c : PathRuleContext} {avoid : List SymbolId} {sources : SymbolSet}

/-- The anchor is a source, and so is the first symbol of the witness. -/
structure Anchors (c : PathRuleContext) (sources : SymbolSet) (out : PathOutcome) : Prop where
  anchor : ∀ o, out.anchor = some o → o ∈ sources
  witness : out.witness = [] ∨ ∃ avoid, ∃ s ∈ sources, ∃ t, c.PathOf avoid s t out.witness

/-- The first reference of a path starts at its source. -/
theorem ordinal_of_pathOf {s t : SymbolOrdinal} {e : BoundedPathEdge} {es : List BoundedPathEdge}
    (h : c.PathOf avoid s t (e :: es)) :
    ∃ a, c.inventory.record s = some a ∧ c.symbols.ordinal e.source = c.symbols.ordinal a.id := by
  obtain ⟨a, b, ha, -, s', t', hs', -, u, hu, v, -, -, w, hstep, -⟩ := h
  obtain rfl : u = s' := by simpa [query] using hu
  exact ⟨a, ha, hstep.source.trans hs'.symm⟩

theorem evaluatePathRule_empty {sel : PathSelections} (h : sel.source = ∅) :
    c.evaluatePathRule sel = if c.rule.requireNonEmpty then .failed "empty_source_selector"
      else .inconclusive "empty_source_selector" := by
  simp [evaluatePathRule, h]

/-! ## The loop over the pairs -/

theorem Anchors.finish {out : PathOutcome} (h : Anchors c sources out)
    (expect : WorkspacePathExpectation) (n : ℕ) : Anchors c sources (out.finish expect n) :=
  ⟨h.anchor, h.witness⟩

theorem anchors_blank {out : PathOutcome} (hanchor : out.anchor = none)
    (hwitness : out.witness = []) : Anchors c sources out :=
  ⟨fun _ ho => (nomatch hanchor.symm.trans ho), Or.inl hwitness⟩

theorem nextSearchLimits_blank {out out' : PathOutcome} {rule : CompiledWorkspacePathRule}
    (h : nextSearchLimits out rule = .error out') :
    out'.anchor = out.anchor ∧ out'.witness = out.witness := by
  unfold nextSearchLimits at h
  split_ifs at h <;> · obtain rfl := Except.error.inj h; exact ⟨rfl, rfl⟩

theorem evaluatePairs_anchors (n : ℕ) : ∀ (rest : List (SymbolOrdinal × SymbolOrdinal))
    (out : PathOutcome), (∀ p ∈ rest, p.1 ∈ sources) → out.anchor = none → out.witness = [] →
      Anchors c sources (c.evaluatePairs n rest out)
  | [], out, _, hanchor, hwitness => by
    rw [evaluatePairs]
    exact (anchors_blank hanchor hwitness).finish _ _
  | (s, t) :: rest, out, hmem, hanchor, hwitness => by
    have hrest : ∀ p ∈ rest, p.1 ∈ sources := fun p hp => hmem p (List.mem_cons_of_mem _ hp)
    unfold evaluatePairs
    cases hlimits : nextSearchLimits out c.rule with
    | error out' =>
      obtain ⟨hanchor', hwitness'⟩ := nextSearchLimits_blank hlimits
      exact (anchors_blank (hanchor'.trans hanchor) (hwitness'.trans hwitness)).finish _ _
    | ok limits =>
      have hroom := nextSearchLimits_room hlimits
      simp only
      cases ha : c.inventory.record s with
      | none => exact evaluatePairs_anchors n rest _ hrest hanchor hwitness
      | some a =>
        cases hb : c.inventory.record t with
        | none => exact evaluatePairs_anchors n rest _ hrest hanchor hwitness
        | some b =>
          simp only
          cases hsearch : c.engineSearch [] limits a.id b.id with
          | none => exact evaluatePairs_anchors n rest _ hrest hanchor hwitness
          | some search =>
            simp only
            split_ifs with hfound hcomplete
            · refine Anchors.finish ⟨fun _ ho => ?_, Or.inr ?_⟩ _ _
              · cases hanchor.symm.trans ho
              · refine ⟨[], s, hmem _ List.mem_cons_self, t, a, b, ha, hb, ?_⟩
                simpa [PathOutcome.absorb, recordCoverageReason, hwitness] using
                  (engineSearch_spec hroom hsearch).1 hfound
            · have hnil : search.path = [] := not_not.mp (not_or.mp hfound).2
              refine evaluatePairs_anchors n rest _ hrest hanchor ?_
              simp [PathOutcome.absorb, recordCoverageReason, hwitness, hnil]
            · have hnil : search.path = [] := not_not.mp (not_or.mp hfound).2
              refine evaluatePairs_anchors n rest _ hrest hanchor ?_
              simp [PathOutcome.absorb, recordCoverageReason, hwitness, hnil]

/-! ## The loops over sources and targets -/

/-- The anchor of what the loop over the targets leaves, whether it ends or returns. -/
def scanAnchor : Except PathOutcome SourceScan → Option SymbolOrdinal
  | .error out => out.anchor
  | .ok scan => scan.outcome.anchor

theorem scanTargets_anchor (a : InventorySymbol) : ∀ (rest : List SymbolOrdinal)
    (scan : SourceScan), scanAnchor (c.scanTargets avoid a rest scan) = scan.outcome.anchor
  | [], scan => rfl
  | t :: rest, scan => by
    unfold scanTargets
    cases c.inventory.record t with
    | none => exact scanTargets_anchor a rest _
    | some b =>
      simp only
      cases hlimits : nextSearchLimits scan.outcome c.rule with
      | error out => exact (nextSearchLimits_blank hlimits).1
      | ok limits =>
        simp only
        cases c.engineSearch [] limits a.id b.id with
        | none => exact scanTargets_anchor a rest _
        | some search =>
          simp only
          split_ifs
          · split
            · next out hout => exact (nextSearchLimits_blank hout).1
            · next limits' _ =>
              cases c.engineSearch avoid limits' a.id b.id with
              | none => exact scanTargets_anchor a rest _
              | some bypass =>
                simp only
                split_ifs
                · rfl
                · exact scanTargets_anchor a rest _
          · exact scanTargets_anchor a rest _

theorem scanSources_anchors {targets : SymbolSet} : ∀ (rest : List SymbolOrdinal)
    (out : PathOutcome), (∀ s ∈ rest, s ∈ sources) → out.anchor = none →
      (c.scanSources avoid targets rest out).verdict = some .fail →
        Anchors c sources (c.scanSources avoid targets rest out)
  | [], out, _, _, hfail => by
    rw [scanSources] at hfail
    split_ifs at hfail <;> simp at hfail
  | s :: rest, out, hmem, hanchor, hfail => by
    have hrest : ∀ s ∈ rest, s ∈ sources := fun s hs => hmem s (List.mem_cons_of_mem _ hs)
    have hs : s ∈ sources := hmem s List.mem_cons_self
    unfold scanSources at hfail ⊢
    cases ha : c.inventory.record s with
    | none =>
      simp only [ha] at hfail ⊢
      exact scanSources_anchors rest _ hrest hanchor hfail
    | some a =>
      simp only [ha] at hfail ⊢
      have hkept : scanAnchor (c.scanTargets avoid a targets.elems ⟨out, false, true⟩) =
          out.anchor :=
        scanTargets_anchor a targets.elems ⟨out, false, true⟩
      have hscan : ScanPost c avoid s out.incomplete ([] ++ targets.elems)
          (c.scanTargets avoid a targets.elems ⟨out, false, true⟩) :=
        scanTargets_spec ha out.incomplete targets.elems [] _ ⟨rfl, by simp, by simp, by simp⟩
      cases hres : c.scanTargets avoid a targets.elems ⟨out, false, true⟩ with
      | error out' =>
        rw [hres] at hkept hscan
        simp only [hres] at hfail ⊢
        constructor
        · intro _ ho
          cases hanchor.symm.trans (hkept.symm.trans ho)
        · rcases hscan with hopen | ⟨-, t, -, hpath⟩
          · simp [hopen] at hfail
          · exact Or.inr ⟨avoid, s, hs, t, hpath⟩
      | ok scan =>
        rw [hres] at hkept
        simp only [hres] at hfail ⊢
        split_ifs at hfail ⊢
        · exact scanSources_anchors rest _ hrest (hkept.trans hanchor) hfail
        · exact ⟨fun o ho => Option.some.inj ho ▸ hs, Or.inl rfl⟩
        · simp at hfail

/-! ## The rule -/

theorem anchors_empty (reason : String) (require : Bool) : Anchors c sources
    (if require then PathOutcome.failed reason else .inconclusive reason) := by
  split_ifs
  · exact anchors_blank rfl rfl
  · exact anchors_blank rfl rfl

theorem evaluatePathRule_anchors {sel : PathSelections}
    (hfail : (c.evaluatePathRule sel).verdict = some .fail) :
    Anchors c sel.source (c.evaluatePathRule sel) := by
  unfold evaluatePathRule at hfail ⊢
  by_cases hempty : sel.source = ∅ ∨ sel.target = ∅
  · rw [if_pos hempty]
    exact anchors_empty _ _
  · rw [if_neg hempty] at hfail ⊢
    split_ifs at hfail ⊢
    · exact anchors_blank rfl rfl
    · unfold evaluateAllPathsVia at hfail ⊢
      by_cases hvia : sel.via = ∅
      · rw [if_pos hvia]
        exact anchors_empty _ _
      · rw [if_neg hvia] at hfail ⊢
        split_ifs at hfail ⊢
        · exact anchors_blank rfl rfl
        · exact scanSources_anchors _ _ (fun s hs => hs) rfl hfail
    · refine evaluatePairs_anchors _ _ _ (fun p hp => ?_) rfl rfl
      obtain ⟨s, hs, hp⟩ := List.mem_flatMap.mp hp
      obtain ⟨t, -, rfl⟩ := List.mem_map.mp hp
      exact hs

end PathRuleContext

end CodeMoniker
