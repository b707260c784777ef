import CodeMoniker.RuleLogic

/-!
# Items that are not applicable

Three loops decide a quantifier : over the items of a definition by counting
(`QuantKind.ofCounts`), over its own definitions with an exit at the first failure
(`QuantKind.ofDefDomain`), and over the items of a reference (`QuantKind.ofRefDomain`). They read
`any` and `none` alike. For `all` the first two count an item that is not applicable as one that
does not pass, and the third passes it over (`ofCounts_all`, `ofRefDomain_all`).
-/

namespace CodeMoniker

open NodeOutcome QuantKind

namespace QuantKind

/-! ## What each loop decides -/

variable (os : List NodeOutcome)

theorem ofCounts_any : any.ofCounts os = .ofBool (.pass ∈ os) := by
  simp [ofCounts, holds, List.count_pos_iff]

theorem ofCounts_none : none.ofCounts os = .ofBool (.pass ∉ os) := by
  simp [ofCounts, holds, List.count_eq_zero]

theorem ofCounts_all : all.ofCounts os = .ofBool (∀ o ∈ os, .pass = o) := by
  have hempty : os.length = 0 → os.count pass = os.length := by
    intro h
    rw [List.length_eq_zero_iff.mp h]
    rfl
  simp only [ofCounts, holds, ← List.count_eq_length, ← Bool.decide_or, or_iff_right_of_imp hempty]

/-- A failure is an item that does not pass, so leaving the loop early changes nothing. -/
theorem ofDefDomain_eq_ofCounts (kind : QuantKind) (os : List NodeOutcome) :
    kind.ofDefDomain os = kind.ofCounts os := by
  unfold ofDefDomain
  split_ifs with h
  · obtain ⟨rfl, hfail⟩ := h
    rw [ofCounts_all, decide_eq_false fun hall => nomatch hall _ hfail]
    rfl
  · rfl

theorem refLoop_any : ∀ (matched : ℕ) (os : List NodeOutcome),
    any.refLoop matched os = .ofBool (.pass ∈ os)
  | _, [] => rfl
  | _, .pass :: _ => by simp [refLoop, ofBool]
  | matched, .fail :: os | matched, .notApplicable :: os => by
    simp [refLoop, refLoop_any matched os]

theorem refLoop_none : ∀ (matched : ℕ) (os : List NodeOutcome),
    none.refLoop matched os = .ofBool (matched = 0 ∧ .pass ∉ os)
  | matched, [] => by
    cases matched <;> rfl
  | matched, .pass :: os => by simp [refLoop, refLoop_none (matched + 1) os]
  | matched, .fail :: os | matched, .notApplicable :: os => by
    simp [refLoop, refLoop_none matched os]

theorem refLoop_all : ∀ (matched : ℕ) (os : List NodeOutcome),
    all.refLoop matched os = .ofBool (.fail ∉ os)
  | _, [] => rfl
  | _, .fail :: _ => by simp [refLoop, ofBool]
  | matched, .pass :: os => by simp [refLoop, refLoop_all (matched + 1) os]
  | matched, .notApplicable :: os => by simp [refLoop, refLoop_all matched os]

theorem ofRefDomain_eq_refLoop (kind : QuantKind) (os : List NodeOutcome) :
    kind.ofRefDomain os = kind.refLoop 0 os := by
  unfold ofRefDomain
  split_ifs with h
  · subst h
    cases kind <;> rfl
  · rfl

theorem ofRefDomain_any : any.ofRefDomain os = any.ofCounts os := by
  rw [ofRefDomain_eq_refLoop, refLoop_any, ofCounts_any]

theorem ofRefDomain_none : none.ofRefDomain os = none.ofCounts os := by
  rw [ofRefDomain_eq_refLoop, refLoop_none, ofCounts_none]
  simp

theorem ofRefDomain_all : all.ofRefDomain os = .ofBool (.fail ∉ os) := by
  rw [ofRefDomain_eq_refLoop, refLoop_all]

/-! ## Agreement -/

/-- An item that is not applicable is harmless beside one that fails. -/
def Decided (os : List NodeOutcome) : Prop := .notApplicable ∈ os → .fail ∈ os

instance (os : List NodeOutcome) : Decidable (Decided os) :=
  inferInstanceAs (Decidable (_ → _))

/-- The three loops decide every quantifier alike. -/
def Agree (os : List NodeOutcome) : Prop :=
  ∀ kind : QuantKind, kind.ofCounts os = kind.ofDefDomain os ∧
    kind.ofDefDomain os = kind.ofRefDomain os

theorem all_pass_iff_of_decided {os : List NodeOutcome} (h : Decided os) :
    (∀ o ∈ os, .pass = o) ↔ .fail ∉ os := by
  refine ⟨fun hall hfail => (nomatch hall _ hfail), fun hfail o ho => ?_⟩
  cases o with
  | pass => rfl
  | fail => exact absurd ho hfail
  | notApplicable => exact absurd (h ho) hfail

theorem ofBool_injective : Function.Injective ofBool := by
  intro b b' h
  cases b <;> cases b' <;> first | rfl | cases h

theorem agree_iff_decided : Agree os ↔ Decided os := by
  constructor
  · intro h hopen
    by_contra hfail
    have hall := (h .all).2
    rw [ofDefDomain_eq_ofCounts, ofCounts_all, ofRefDomain_all, decide_eq_true hfail] at hall
    have hpass := of_decide_eq_true (ofBool_injective hall)
    exact nomatch hpass _ hopen
  · intro h kind
    refine ⟨(ofDefDomain_eq_ofCounts kind os).symm, ?_⟩
    rw [ofDefDomain_eq_ofCounts]
    cases kind with
    | any => exact (ofRefDomain_any os).symm
    | none => exact (ofRefDomain_none os).symm
    | all =>
      rw [ofCounts_all, ofRefDomain_all]
      simp only [all_pass_iff_of_decided h]

theorem pass_mem_map_notOutcome {os : List NodeOutcome} :
    .pass ∈ os.map notOutcome ↔ .fail ∈ os := by
  constructor
  · intro h
    obtain ⟨o, ho, hpass⟩ := List.mem_map.mp h
    cases o with
    | fail => exact ho
    | pass | notApplicable => cases hpass
  · exact fun h => List.mem_map.mpr ⟨_, h, rfl⟩

theorem ofCounts_none_not : none.ofCounts (os.map notOutcome) = .ofBool (.fail ∉ os) := by
  rw [ofCounts_none]
  simp only [pass_mem_map_notOutcome]

/-- `all` by counts is `none` of the negations where no item is left open. -/
theorem ofCounts_all_eq_none_not {os : List NodeOutcome} (h : Decided os) :
    all.ofCounts os = none.ofCounts (os.map notOutcome) := by
  rw [ofCounts_all, ofCounts_none_not]
  simp only [all_pass_iff_of_decided h]

theorem ofCounts_any_eq_not_none : any.ofCounts os = (none.ofCounts os).notOutcome := by
  rw [ofCounts_any, ofCounts_none]
  by_cases h : .pass ∈ os <;> simp [h, ofBool, notOutcome]

end QuantKind

/-! ## Duality -/

namespace Scope

variable {ctx : EvalCtx} (s : Scope ctx)

/-- The outcomes of a filter at the items over which a quantifier of the scope ranges. Where the
scope has no quantifiers, or no syntax tree, there are none. -/
def quantified (domain : Domain) (filter : Node) : List NodeOutcome :=
  match s with
  | .definition i self =>
    match ctx.defScopes domain i self with
    | .error _ => []
    | .ok scopes => scopes.map fun item => item.evalNode filter
  | .ref r _ => (ctx.refScopes domain r).map fun item => item.evalNode filter
  | _ => []

theorem quantified_not (domain : Domain) (filter : Node) :
    s.quantified domain (.not filter) = (s.quantified domain filter).map .notOutcome := by
  have hnot : ∀ scopes : List (Scope ctx), scopes.map (fun item => item.evalNode (.not filter)) =
      (scopes.map fun item => item.evalNode filter).map .notOutcome := by
    intro scopes
    rw [List.map_map]
    refine List.map_congr_left fun item _ => ?_
    simp only [evalNode, Function.comp_apply]
  cases s with
  | definition i self =>
    simp only [quantified]
    split
    · rfl
    · exact hnot _
  | ref r current => exact hnot _
  | ast | external | segment | pair => rfl

/-- A quantifier is not applicable in every filter alike, or it is decided by one of the loops
over the outcomes of its filter. -/
theorem evalNode_quantifier (domain : Domain) : (∀ (kind : QuantKind) (filter : Node),
      s.evalNode (.quantifier kind domain filter) = .notApplicable ∧
        s.quantified domain filter = []) ∨
    (∀ (kind : QuantKind) (filter : Node), s.evalNode (.quantifier kind domain filter) =
      kind.ofCounts (s.quantified domain filter)) ∨
    ∀ (kind : QuantKind) (filter : Node), s.evalNode (.quantifier kind domain filter) =
      kind.ofRefDomain (s.quantified domain filter) := by
  cases s with
  | definition i self =>
    cases hscopes : ctx.defScopes domain i self with
    | error e =>
      refine Or.inl fun kind filter => ?_
      simp only [evalNode, quantified, hscopes, and_self]
    | ok scopes =>
      refine Or.inr (Or.inl fun kind filter => ?_)
      simp only [evalNode, quantified, hscopes]
      split
      all_goals first | exact ofDefDomain_eq_ofCounts _ _ | rfl
  | ref r current => exact Or.inr (Or.inr fun kind filter => by simp only [evalNode, quantified])
  | ast | external | segment | pair =>
    exact Or.inl fun kind filter => by simp only [evalNode, quantified, and_self]

/-- The quantifiers of a scope over a domain are dual to each other, and the three loops agree
on the outcomes of the filter. -/
def QuantifiersUniform (domain : Domain) (filter : Node) : Prop :=
  s.evalNode (.quantifier .all domain filter) =
      s.evalNode (.quantifier .none domain (.not filter)) ∧
    s.evalNode (.quantifier .any domain filter) =
      s.evalNode (.not (.quantifier .none domain filter)) ∧
    QuantKind.Agree (s.quantified domain filter)

/-- In every scope, over every domain and with every filter, the quantifiers treat what is not
applicable alike if and only if no item is not applicable or some item fails. -/
theorem quantifiersUniform_iff (s : Scope ctx) (domain : Domain) (filter : Node) :
    s.QuantifiersUniform domain filter ↔
      (.notApplicable ∉ s.quantified domain filter ∨ .fail ∈ s.quantified domain filter) := by
  rw [← imp_iff_not_or]
  refine ⟨fun h => (agree_iff_decided _).mp h.2.2, fun h => ?_⟩
  have hdecided : QuantKind.Decided (s.quantified domain filter) := h
  refine ⟨?_, ?_, (agree_iff_decided _).mpr hdecided⟩
  · rcases s.evalNode_quantifier domain with hs | hs | hs
    · rw [(hs _ _).1, (hs _ _).1]
    · rw [hs, hs, quantified_not, ofCounts_all_eq_none_not hdecided]
    · rw [hs, hs, quantified_not, ofRefDomain_none, ofRefDomain_all, ofCounts_none_not]
  · have hnot : s.evalNode (.not (.quantifier .none domain filter)) =
        (s.evalNode (.quantifier .none domain filter)).notOutcome := by simp only [evalNode]
    rw [hnot]
    rcases s.evalNode_quantifier domain with hs | hs | hs
    · rw [(hs _ _).1, (hs _ _).1]
      rfl
    · rw [hs, hs, ofCounts_any_eq_not_none]
    · rw [hs, hs, ofRefDomain_any, ofRefDomain_none, ofCounts_any_eq_not_none]

/-- The visibility of a function of another file is not applicable. Counted by the module it
keeps `all` from passing, and no negation passes either; and a reference would pass it over. -/
theorem not_quantifiersUniform_callsLogModule :
    callsLogModule.evalNode (.quantifier .all .outRefs (.atom targetIsPublic)) = .fail ∧
      callsLogModule.evalNode (.quantifier .none .outRefs (.not (.atom targetIsPublic))) = .pass ∧
      callsLogModule.quantified .outRefs (.atom targetIsPublic) = [.notApplicable] ∧
      QuantKind.all.ofRefDomain [.notApplicable] = .pass ∧
      ¬callsLogModule.QuantifiersUniform .outRefs (.atom targetIsPublic) := by
  have hall : callsLogModule.evalNode
      (.quantifier .all .outRefs (.atom targetIsPublic)) = .fail := by
    decide
  have hnone : callsLogModule.evalNode
      (.quantifier .none .outRefs (.not (.atom targetIsPublic))) = .pass := by
    decide
  have hitems : callsLogModule.quantified .outRefs (.atom targetIsPublic) = [.notApplicable] := by
    decide
  refine ⟨hall, hnone, hitems, rfl, fun h => ?_⟩
  have hdual := h.1
  rw [hall, hnone] at hdual
  cases hdual

end Scope

end CodeMoniker
