import CodeMoniker.LinkedEvaluation
import CodeMoniker.Suppressions

/-!
# Reports after suppression

Both drivers of a check count the violations of a rule again once the directives of the files
have been applied, and give its report the verdict of that count. `VerdictKept` says what the
verdict of a report may become.

A failure without a violation becomes a pass. The evaluation emits one for every failure,
except that of a path rule with `require_non_empty` when there is no symbol to attach it to
(`verdictKept_iff`).
-/

namespace CodeMoniker

open LinkedEvaluation (evaluateLinked)

/-! ## What is kept of the violations -/

/-- The violations of each file, in their order. -/
def violationsBySource (vs : List WorkspaceSymbolViolation) :
    OrdMap ℕ (List WorkspaceSymbolViolation) :=
  vs.foldl (fun m v => m.update v.source [] (· ++ [v])) ∅

/-- Those that directives do not apply to, then those that no directive suppresses. -/
def keptViolations (graph : CodeGraph) (source : ByteCodec.Bytes)
    (vs : List WorkspaceSymbolViolation) : List Violation :=
  (vs.filter fun v => !v.sourceSuppression).map (·.violation) ++
    Suppress.apply graph source ((vs.filter (·.sourceSuppression)).map (·.violation))

/-- A directive of the file suppresses the violation. -/
def WorkspaceSymbolViolation.SuppressedIn (graph : CodeGraph) (source : ByteCodec.Bytes)
    (v : WorkspaceSymbolViolation) : Prop :=
  v.sourceSuppression = true ∧ Suppress.SuppressedInHull graph source v.violation

theorem mem_violationsBySource {vs : List WorkspaceSymbolViolation} {k : ℕ}
    {v : WorkspaceSymbolViolation} :
    (∃ group, (violationsBySource vs).get? k = some group ∧ v ∈ group) ↔ v ∈ vs ∧ v.source = k := by
  have happend : ∀ (vs : List WorkspaceSymbolViolation) (group : List WorkspaceSymbolViolation),
      vs.foldl (fun group v => group ++ [v]) group = group ++ vs := by
    intro vs
    induction vs with
    | nil => simp
    | cons v vs ih =>
      intro group
      rw [List.foldl_cons, ih, List.append_assoc, List.singleton_append]
  have hmem : v ∈ vs ∧ v.source = k ↔ v ∈ vs.filter (·.source = k) := by simp
  rw [violationsBySource, OrdMap.get?_foldl_update, hmem]
  cases vs.filter (·.source = k) with
  | nil => simp
  | cons w group => simp [happend]

theorem mem_keptViolations {graph : CodeGraph} {source : ByteCodec.Bytes} {id : String}
    {vs : List WorkspaceSymbolViolation} : (∃ w ∈ keptViolations graph source vs, w.ruleId = id) ↔
      ∃ v ∈ vs, v.violation.ruleId = id ∧ ¬v.SuppressedIn graph source := by
  unfold keptViolations WorkspaceSymbolViolation.SuppressedIn
  rw [Suppress.apply_eq_filter]
  simp only [List.mem_append, List.mem_map, List.mem_filter, Bool.not_eq_true', decide_eq_true_eq]
  constructor
  · rintro ⟨w, ⟨v, ⟨hv, hfixed⟩, rfl⟩ | ⟨⟨v, ⟨hv, -⟩, rfl⟩, hkept⟩, hid⟩
    · exact ⟨v, hv, hid, fun h => absurd h.1 (by simp [hfixed])⟩
    · exact ⟨v, hv, hid, fun h => hkept h.2⟩
  · rintro ⟨v, hv, hid, hkept⟩
    refine ⟨v.violation, ?_, hid⟩
    cases hsuppressible : v.sourceSuppression with
    | false => exact Or.inl ⟨v, ⟨hv, hsuppressible⟩, rfl⟩
    | true => exact Or.inr ⟨⟨v, ⟨hv, hsuppressible⟩, rfl⟩, fun h => hkept ⟨hsuppressible, h⟩⟩

/-! ## The verdict of a count -/

def recountedVerdict (violations : ℕ) (inconclusive : Option ℕ) : RuleVerdict :=
  if 0 < violations then .fail
  else if 0 < inconclusive.getD 0 then .inconclusive
  else .pass

theorem recountedVerdict_fail_iff {n : ℕ} {inconclusive : Option ℕ} :
    recountedVerdict n inconclusive = .fail ↔ 0 < n := by
  unfold recountedVerdict
  split_ifs <;> simp <;> omega

theorem recountedVerdict_pass_iff {n : ℕ} {inconclusive : Option ℕ} :
    recountedVerdict n inconclusive = .pass ↔ n = 0 ∧ inconclusive.getD 0 = 0 := by
  unfold recountedVerdict
  split_ifs <;> simp <;> omega

/-- A report fails if and only if an unsuppressed violation of its rule is left, what is open
does not pass, and a failure passes only if the rule has violations and all are suppressed. -/
structure VerdictKept (emitted : List WorkspaceSymbolViolation)
    (suppressed : WorkspaceSymbolViolation → Prop) (before after : LinkedRuleReport) : Prop where
  fail_iff : after.verdict = some .fail ↔
    ∃ v ∈ emitted, v.violation.ruleId = before.ruleId ∧ ¬suppressed v
  unsettled : before.verdict = some .inconclusive → after.verdict ≠ some .pass
  failed : before.verdict = some .fail → after.verdict = some .pass →
    (∃ v ∈ emitted, v.violation.ruleId = before.ruleId) ∧
      ∀ v ∈ emitted, v.violation.ruleId = before.ruleId → suppressed v

/-- The report has the verdict of a count that is positive if and only if a violation is left. -/
def Recounted (emitted : List WorkspaceSymbolViolation)
    (suppressed : WorkspaceSymbolViolation → Prop) (before after : LinkedRuleReport) : Prop :=
  ∃ n, after.verdict = some (recountedVerdict n before.inconclusive) ∧
    (0 < n ↔ ∃ v ∈ emitted, v.violation.ruleId = before.ruleId ∧ ¬suppressed v)

section Recount

variable {emitted : List WorkspaceSymbolViolation} {suppressed : WorkspaceSymbolViolation → Prop}
  {before after : LinkedRuleReport}

theorem Recounted.verdictKept (h : Recounted emitted suppressed before after)
    (hopen : before.verdict = some .inconclusive → 0 < before.inconclusive.getD 0)
    (hfailed : before.verdict = some .fail → ∃ v ∈ emitted, v.violation.ruleId = before.ruleId) :
    VerdictKept emitted suppressed before after := by
  obtain ⟨n, hverdict, hcount⟩ := h
  have hfail : after.verdict = some .fail ↔ 0 < n := by
    rw [hverdict, Option.some.injEq, recountedVerdict_fail_iff]
  have hpass : after.verdict = some .pass ↔ n = 0 ∧ before.inconclusive.getD 0 = 0 := by
    rw [hverdict, Option.some.injEq, recountedVerdict_pass_iff]
  refine ⟨hfail.trans hcount, fun hv h => ?_, fun hv h => ⟨hfailed hv, fun v hmem hid => ?_⟩⟩
  · exact absurd (hpass.mp h).2 (hopen hv).ne'
  · by_contra hkept
    exact absurd (hpass.mp h).1 (hcount.mpr ⟨v, hmem, hid, hkept⟩).ne'

/-- A failure that comes with no violation and nothing open passes. -/
theorem Recounted.not_verdictKept (h : Recounted emitted suppressed before after)
    (hempty : ∀ v, v ∉ emitted) (hfail : before.verdict = some .fail)
    (hopen : before.inconclusive = some 0) :
    after.verdict = some .pass ∧ ¬VerdictKept emitted suppressed before after := by
  obtain ⟨n, hverdict, hcount⟩ := h
  have hzero : n = 0 := by
    by_contra hne
    obtain ⟨v, hv, -⟩ := hcount.mp (Nat.pos_of_ne_zero hne)
    exact hempty v hv
  have hpass : after.verdict = some .pass := by
    rw [hverdict, hzero, hopen]
    rfl
  refine ⟨hpass, fun hkept => ?_⟩
  obtain ⟨⟨v, hv, -⟩, -⟩ := hkept.failed hfail hpass
  exact hempty v hv

end Recount

/-! ## When verdicts are kept -/

section Evaluation

variable {s : LinkedIndex} {u : SymbolSet} {rules : LinkedRules}

theorem emitted_empty (report : Bool) (v : WorkspaceSymbolViolation) :
    v ∉ (evaluateLinked s ∅ report rules).violations := by
  intro hv
  obtain ⟨o, ho, -⟩ :=
    (LinkedEvaluation.grounded_evaluateLinked report fun _ h => absurd h (OrdSet.notMem_empty _)).anchored
      v hv
  exact OrdSet.notMem_empty o ho

/-- Counting again keeps the verdicts of an evaluation if and only if there is a symbol, or no
path rule requires one. -/
theorem verdictKept_iff (hu : ∀ o ∈ u, ∃ r, s.index.inventory.record o = some r)
    {suppressed : WorkspaceSymbolViolation → Prop} {after : LinkedRuleReport → LinkedRuleReport}
    (hafter : ∀ r ∈ (evaluateLinked s u true rules).reports, r.verdict.isSome →
      Recounted (evaluateLinked s u true rules).violations suppressed r (after r)) :
    (∀ r ∈ (evaluateLinked s u true rules).reports, r.verdict.isSome →
        VerdictKept (evaluateLinked s u true rules).violations suppressed r (after r)) ↔
      ((∃ rule ∈ rules.paths, rule.requireNonEmpty = true) → u ≠ ∅) := by
  constructor
  · rintro h hrule rfl
    obtain ⟨r, hr, hfail, hopen⟩ :=
      @LinkedEvaluation.exists_failed_report s ∅ rules ⟨rfl, hrule⟩
    have hsome : r.verdict.isSome := by rw [hfail]; rfl
    exact ((hafter r hr hsome).not_verdictKept (emitted_empty true) hfail hopen).2 (h r hr hsome)
  · intro h r hr hsome
    have hgrounded := @LinkedEvaluation.grounded_evaluateLinked s u rules true hu
    refine (hafter r hr hsome).verdictKept (hgrounded.unsettled r hr) fun hfail => ?_
    exact (hgrounded.failed r hr hfail).resolve_right fun hempty => h hempty.2 hempty.1

end Evaluation

end CodeMoniker
