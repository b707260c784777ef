import CodeMoniker.GroupPredicate

/-!
# Group predicates as three-valued logic

A comparison of a group predicate is true, false or unavailable, and so is the predicate : an
outcome says so by a boolean and an error beside it (`GroupPredicateOutcome.truth`). For every
assignment of outcomes to the comparisons the loops of `evaluate` compute the strong Kleene
value of the predicate (`GroupPredicate.truth_evaluateWith`).
-/

namespace CodeMoniker

open Kleene

/-- An error leaves the answer open. -/
def GroupPredicateOutcome.truth (out : GroupPredicateOutcome) : Option Bool :=
  if out.error.isSome then none else some out.passed

theorem GroupPredicateOutcome.truth_eq_some_iff {out : GroupPredicateOutcome} {b : Bool} :
    out.truth = some b ↔ out.error = none ∧ out.passed = b := by
  unfold truth
  cases out.error <;> simp

theorem GroupPredicateOutcome.truth_eq_none_iff {out : GroupPredicateOutcome} :
    out.truth = none ↔ out.error ≠ none := by
  unfold truth
  cases out.error <;> simp

namespace GroupPredicate

/-- The outcome of a comparison : true, false, or unavailable with an error. -/
abbrev Comparison : Type := {out : GroupPredicateOutcome // Settled out}

/-- An outcome for each comparison that a predicate may ask for. -/
abbrev Assignment : Type := GroupNumberExpr → Op → Float → Comparison

/-- The outcomes that the records of a group give. -/
def compared (records : List InventorySymbol) (total : ℕ) : Assignment := fun e op limit =>
  ⟨e.compare op limit records total, settled_compare e op limit records total⟩

/-! ## The evaluator over an assignment -/

mutual

/-- `evaluate` with the comparisons read off the assignment. -/
def evaluateWith (a : Assignment) : GroupPredicate → GroupPredicateOutcome
  | .compare expr op limit => (a expr op limit).1
  | .and predicates => evaluateSequenceWith a false [] none predicates
  | .or predicates => evaluateSequenceWith a true [] none predicates
  | .not predicate => evaluateNot (evaluateWith a predicate)
  | .implies premise conclusion =>
    evaluateImplies (evaluateWith a premise) (evaluateWith a conclusion)

def evaluateSequenceWith (a : Assignment) (stop : Bool) :
    List String → Option String → List GroupPredicate → GroupPredicateOutcome
  | observations, pending, [] => ⟨pending.isNone && !stop, observations, pending⟩
  | observations, pending, predicate :: rest =>
    let out := evaluateWith a predicate
    let observations := observations ++ out.observations
    match out.error with
    | some error => evaluateSequenceWith a stop observations (pending.or (some error)) rest
    | none =>
      if out.passed = stop then ⟨stop, observations, none⟩
      else evaluateSequenceWith a stop observations pending rest

end

mutual

theorem evaluate_eq_evaluateWith (records : List InventorySymbol) (total : ℕ) :
    ∀ p : GroupPredicate, evaluate records total p = evaluateWith (compared records total) p
  | .compare e op limit => by
    rw [evaluate, evaluateWith]
    rfl
  | .and predicates => by
    rw [evaluate, evaluateWith, evaluateSequence_eq_evaluateSequenceWith]
  | .or predicates => by
    rw [evaluate, evaluateWith, evaluateSequence_eq_evaluateSequenceWith]
  | .not predicate => by
    rw [evaluate, evaluateWith, evaluate_eq_evaluateWith records total predicate]
  | .implies premise conclusion => by
    rw [evaluate, evaluateWith, evaluate_eq_evaluateWith records total premise,
      evaluate_eq_evaluateWith records total conclusion]

theorem evaluateSequence_eq_evaluateSequenceWith (records : List InventorySymbol) (total : ℕ)
    (stop : Bool) : ∀ (predicates : List GroupPredicate) (observations : List String)
      (pending : Option String),
      evaluateSequence records total stop observations pending predicates =
        evaluateSequenceWith (compared records total) stop observations pending predicates
  | [], observations, pending => by rw [evaluateSequence, evaluateSequenceWith]
  | predicate :: rest, observations, pending => by
    have hrest := evaluateSequence_eq_evaluateSequenceWith records total stop rest
    rw [evaluateSequence, evaluateSequenceWith, evaluate_eq_evaluateWith records total predicate]
    cases (evaluateWith (compared records total) predicate).error with
    | some error => exact hrest _ _
    | none => exact ite_congr rfl (fun _ => rfl) fun _ => hrest _ _

end

/-! ## The strong Kleene value -/

/-- The table of the strong Kleene implication. -/
def kleeneImplies : Option Bool → Option Bool → Option Bool
  | some false, _ => some true
  | _, some true => some true
  | some true, some false => some false
  | _, _ => none

mutual

def value (a : Assignment) : GroupPredicate → Option Bool
  | .compare expr op limit => (a expr op limit).1.truth
  | .and predicates => fold false false (values a predicates)
  | .or predicates => fold true false (values a predicates)
  | .not predicate => (value a predicate).map Bool.not
  | .implies premise conclusion => kleeneImplies (value a premise) (value a conclusion)

def values (a : Assignment) : List GroupPredicate → List (Option Bool)
  | [] => []
  | predicate :: rest => value a predicate :: values a rest

end

theorem truth_evaluateNot (out : GroupPredicateOutcome) :
    (evaluateNot out).truth = out.truth.map Bool.not := by
  obtain ⟨passed, observations, error⟩ := out
  cases error <;> rfl

/-- An implication with an open premise keeps that error, so the premise must not have passed. -/
theorem truth_evaluateImplies (premise conclusion : GroupPredicateOutcome) :
    (evaluateImplies premise conclusion).truth = kleeneImplies premise.truth conclusion.truth := by
  obtain ⟨p, po, pe⟩ := premise
  obtain ⟨c, co, ce⟩ := conclusion
  cases pe <;> cases ce <;> cases p <;> cases c <;> rfl

mutual

/-- The outcome of a predicate says its strong Kleene value. -/
theorem truth_evaluateWith (a : Assignment) :
    ∀ p : GroupPredicate, (evaluateWith a p).truth = value a p
  | .compare e op limit => by rw [evaluateWith, value]
  | .and predicates => by
    rw [evaluateWith, value, truth_evaluateSequenceWith a false predicates [] none]
    rfl
  | .or predicates => by
    rw [evaluateWith, value, truth_evaluateSequenceWith a true predicates [] none]
    rfl
  | .not predicate => by
    rw [evaluateWith, value, truth_evaluateNot, truth_evaluateWith a predicate]
  | .implies premise conclusion => by
    rw [evaluateWith, value, truth_evaluateImplies, truth_evaluateWith a premise,
      truth_evaluateWith a conclusion]

-- A pending error stands for an open operand that the list no longer has.
theorem truth_evaluateSequenceWith (a : Assignment) (stop : Bool) :
    ∀ (predicates : List GroupPredicate) (observations : List String) (pending : Option String),
      (evaluateSequenceWith a stop observations pending predicates).truth =
        fold stop pending.isSome (values a predicates)
  | [], observations, pending => by
    rw [evaluateSequenceWith, values]
    cases pending <;> rfl
  | predicate :: rest, observations, pending => by
    rw [evaluateSequenceWith, values, ← truth_evaluateWith a predicate]
    cases herror : (evaluateWith a predicate).error with
    | some error =>
      have hopen : (evaluateWith a predicate).truth = none := by
        simp [GroupPredicateOutcome.truth, herror]
      have hpending : (pending.or (some error)).isSome = true := by cases pending <;> rfl
      rw [hopen, fold, ← hpending]
      exact truth_evaluateSequenceWith a stop rest _ _
    | none =>
      have hclosed : (evaluateWith a predicate).truth = some (evaluateWith a predicate).passed := by
        simp [GroupPredicateOutcome.truth, herror]
      rw [hclosed, fold]
      dsimp only
      split_ifs
      · rfl
      · exact truth_evaluateSequenceWith a stop rest _ pending

end

mutual

theorem settled_evaluateWith (a : Assignment) : ∀ p : GroupPredicate, Settled (evaluateWith a p)
  | .compare e op limit => by
    rw [evaluateWith]
    exact (a e op limit).2
  | .and predicates => by
    rw [evaluateWith]
    exact settled_evaluateSequenceWith a false predicates [] none
  | .or predicates => by
    rw [evaluateWith]
    exact settled_evaluateSequenceWith a true predicates [] none
  | .not predicate => by
    rw [evaluateWith]
    exact settled_evaluateNot (settled_evaluateWith a predicate)
  | .implies premise conclusion => by
    rw [evaluateWith]
    exact settled_evaluateImplies (settled_evaluateWith a premise)
      (settled_evaluateWith a conclusion)

theorem settled_evaluateSequenceWith (a : Assignment) (stop : Bool) :
    ∀ (predicates : List GroupPredicate) (observations : List String) (pending : Option String),
      Settled (evaluateSequenceWith a stop observations pending predicates)
  | [], observations, pending => by
    intro hsome
    cases pending with
    | none => simp [evaluateSequenceWith] at hsome
    | some error => simp [evaluateSequenceWith]
  | predicate :: rest, observations, pending => by
    rw [evaluateSequenceWith]
    split
    · exact settled_evaluateSequenceWith a stop rest _ _
    · split_ifs
      · simp [Settled]
      · exact settled_evaluateSequenceWith a stop rest _ _

end

/-! ## The order of operands -/

mutual

/-- The two predicates differ in the order of the operands of conjunctions and disjunctions,
anywhere inside. -/
inductive Reordered : GroupPredicate → GroupPredicate → Prop
  | refl (p : GroupPredicate) : Reordered p p
  | and {ps ps' : List GroupPredicate} (h : ReorderedList ps ps') : Reordered (.and ps) (.and ps')
  | or {ps ps' : List GroupPredicate} (h : ReorderedList ps ps') : Reordered (.or ps) (.or ps')
  | not {p p' : GroupPredicate} (h : Reordered p p') : Reordered (.not p) (.not p')
  | implies {p p' c c' : GroupPredicate} (hp : Reordered p p') (hc : Reordered c c') :
    Reordered (.implies p c) (.implies p' c')

inductive ReorderedList : List GroupPredicate → List GroupPredicate → Prop
  | nil : ReorderedList [] []
  | cons {p p' : GroupPredicate} {ps ps' : List GroupPredicate} (h : Reordered p p')
    (hs : ReorderedList ps ps') : ReorderedList (p :: ps) (p' :: ps')
  | swap (p p' : GroupPredicate) (ps : List GroupPredicate) :
    ReorderedList (p :: p' :: ps) (p' :: p :: ps)
  | trans {ps ps' ps'' : List GroupPredicate} (h : ReorderedList ps ps')
    (h' : ReorderedList ps' ps'') : ReorderedList ps ps''

end

theorem reorderedList_of_perm {ps ps' : List GroupPredicate} (h : ps.Perm ps') :
    ReorderedList ps ps' := by
  induction h with
  | nil => exact .nil
  | cons p _ ih => exact .cons (.refl p) ih
  | swap p p' ps => exact .swap p' p ps
  | trans _ _ ih ih' => exact .trans ih ih'

mutual

theorem Reordered.value_eq (a : Assignment) : ∀ {p p' : GroupPredicate}, Reordered p p' →
    value a p = value a p'
  | _, _, .refl p => rfl
  | _, _, .and h => by
    rw [value, value]
    exact fold_perm (h.values_perm a)
  | _, _, .or h => by
    rw [value, value]
    exact fold_perm (h.values_perm a)
  | _, _, .not h => by rw [value, value, h.value_eq a]
  | _, _, .implies hp hc => by rw [value, value, hp.value_eq a, hc.value_eq a]

theorem ReorderedList.values_perm (a : Assignment) : ∀ {ps ps' : List GroupPredicate},
    ReorderedList ps ps' → (values a ps).Perm (values a ps')
  | _, _, .nil => .nil
  | _, _, .cons h hs => by
    rw [values, values, h.value_eq a]
    exact (hs.values_perm a).cons _
  | _, _, .swap p p' ps => by
    simp only [values]
    exact .swap _ _ _
  | _, _, .trans h h' => (h.values_perm a).trans (h'.values_perm a)

end

theorem kleeneImplies_eq_or (p c : Option Bool) :
    kleeneImplies p c = fold true false [p.map Bool.not, c] := by
  rcases p with _ | _ | _ <;> rcases c with _ | _ | _ <;> rfl

/-! ## Fail-closed composition -/

/-- For every assignment of outcomes to the comparisons, a predicate has passed, has failed
without an error or has failed with an error as its strong Kleene value is true, false or
unknown, an implication as the disjunction it stands for, whatever the order of the operands
inside; and this is the evaluation over the records of a group. -/
theorem evaluate_strongKleene (a : Assignment) : (∀ p : GroupPredicate,
      ((evaluateWith a p).passed = true ∧ (evaluateWith a p).error = none ↔ value a p = some true) ∧
      ((evaluateWith a p).passed = false ∧ (evaluateWith a p).error = none ↔
        value a p = some false) ∧
      ((evaluateWith a p).passed = false ∧ (evaluateWith a p).error ≠ none ↔ value a p = none) ∧
      ((evaluateWith a p).error ≠ none → (evaluateWith a p).passed ≠ true)) ∧
    (∀ ps ps' : List GroupPredicate, ps.Perm ps' →
      (evaluateWith a (.and ps)).truth = (evaluateWith a (.and ps')).truth ∧
      (evaluateWith a (.or ps)).truth = (evaluateWith a (.or ps')).truth) ∧
    (∀ p p' : GroupPredicate, Reordered p p' →
      (evaluateWith a p).truth = (evaluateWith a p').truth) ∧ (∀ p c : GroupPredicate,
      (evaluateWith a (.implies p c)).truth = (evaluateWith a (.or [.not p, c])).truth) ∧
    ∀ (records : List InventorySymbol) (total : ℕ) (p : GroupPredicate),
      evaluate records total p = evaluateWith (compared records total) p := by
  have hreordered : ∀ p p' : GroupPredicate, Reordered p p' →
      (evaluateWith a p).truth = (evaluateWith a p').truth := by
    intro p p' h
    rw [truth_evaluateWith, truth_evaluateWith, h.value_eq a]
  refine ⟨fun p => ?_, fun ps ps' h => ?_, hreordered, fun p c => ?_, evaluate_eq_evaluateWith⟩
  · have hsettled := settled_evaluateWith a p
    have hfailed : (evaluateWith a p).error ≠ none → (evaluateWith a p).passed = false :=
      fun h => hsettled (Option.isSome_iff_ne_none.mpr h)
    rw [← truth_evaluateWith a p, GroupPredicateOutcome.truth_eq_some_iff,
      GroupPredicateOutcome.truth_eq_some_iff, GroupPredicateOutcome.truth_eq_none_iff]
    refine ⟨and_comm, and_comm, ⟨And.right, fun h => ⟨hfailed h, h⟩⟩, fun h => ?_⟩
    rw [hfailed h]
    exact Bool.false_ne_true
  · have hlist := reorderedList_of_perm h
    exact ⟨hreordered _ _ (.and hlist), hreordered _ _ (.or hlist)⟩
  · rw [truth_evaluateWith, truth_evaluateWith]
    simp only [value, values]
    exact kleeneImplies_eq_or _ _

end GroupPredicate

end CodeMoniker
