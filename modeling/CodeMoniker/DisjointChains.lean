import CodeMoniker.RuleLogic

/-!
# Chains of `disjoint`

`A disjoint B disjoint C` is read as one exclusion for each pair of operands, and the exclusions
are joined by a conjunction. A chain of two operands or more passes where at most one of them
does, if none is not applicable, and the order of the operands is immaterial
(`parseDisjoint_atMostOne`).
-/

namespace CodeMoniker

open List

/-! ## The cursor -/

/-- `ParseError::BadExpr`. -/
structure ParseError where
  expr : String
  msg : String
  deriving DecidableEq, Repr

namespace ExprCursor

def isAsciiWhitespace (c : Char) : Bool :=
  c = ' ' || c = '\t' || c = '\n' || c = '\r' || c = '\x0C'

def skipWs (s : List Char) : List Char := s.dropWhile isAsciiWhitespace

/-- The text after a keyword, which ends the text or is followed by a blank or by `(`. -/
def eatKeyword (kw : String) (s : List Char) : Option (List Char) :=
  if kw.toList.isPrefixOf s then
    let after := s.drop kw.toList.length
    if after.head?.all fun c => isAsciiWhitespace c || c = '(' then some after else none
  else none

theorem length_skipWs_le (s : List Char) : (skipWs s).length ≤ s.length :=
  (dropWhile_sublist _).length_le

theorem length_lt_of_eatKeyword {kw : String} (hkw : 0 < kw.toList.length) {s after : List Char}
    (h : eatKeyword kw s = some after) : after.length < s.length := by
  unfold eatKeyword at h
  dsimp only at h
  split_ifs at h with hstart hnext
  obtain rfl := Option.some.inj h
  have hle := (List.isPrefixOf_iff_prefix.mp hstart).length_le
  rw [length_drop]
  omega

end ExprCursor

open ExprCursor

/-! ## The parser -/

/-- `parse_primary`. What it reads is of no interest here; it only moves forward. -/
structure PrimaryParser where
  parse : List Char → Except ParseError (Node × List Char)
  forward : ∀ {s node rest}, parse s = .ok (node, rest) → rest.length ≤ s.length

namespace PrimaryParser

variable (p : PrimaryParser)

def parseNot (s : List Char) : Except ParseError (Node × List Char) :=
  match _hafter : eatKeyword "NOT" (skipWs s) with
  | some after =>
    match parseNot after with
    | .ok (inner, rest) => .ok (.not inner, rest)
    | .error e => .error e
  | none => p.parse (skipWs s)
termination_by s.length
decreasing_by exact (length_lt_of_eatKeyword (by decide) _hafter).trans_le (length_skipWs_le s)

variable {s rest : List Char}

theorem parseNot_forward {node : Node}
    (h : p.parseNot s = .ok (node, rest)) : rest.length ≤ s.length := by
  fun_induction p.parseNot s generalizing node rest with
  | case1 s after hafter inner rest' hrec ih =>
    cases h
    have hshort := (length_lt_of_eatKeyword (by decide) hafter).trans_le (length_skipWs_le s)
    exact (ih hrec).trans hshort.le
  | case2 => cases h
  | case3 s hnone => exact (p.forward h).trans (length_skipWs_le s)

/-- The operands after the first one. -/
def disjointLoop (operands : List Node) (s : List Char) :
    Except ParseError (List Node × List Char) :=
  match _hafter : eatKeyword "disjoint" (skipWs s) with
  | none => .ok (operands, skipWs s)
  | some after =>
    match _hparse : p.parseNot after with
    | .ok (operand, rest) => disjointLoop (operands ++ [operand]) rest
    | .error e => .error e
termination_by s.length
decreasing_by
  exact (p.parseNot_forward _hparse).trans_lt
    ((length_lt_of_eatKeyword (by decide) _hafter).trans_le (length_skipWs_le s))

def exclusion (left right : Node) : Node := .not (.and [left, right])

def exclusions (operands : List Node) : List Node :=
  (pairIter operands).map fun pair => exclusion pair.1 pair.2

def disjointRoot (operands : List Node) : Node :=
  match operands with
  | [operand] => operand
  | operands =>
    match exclusions operands with
    | [only] => only
    | exclusions => .and exclusions

def parseDisjoint (s : List Char) : Except ParseError (Node × List Char) := do
  let (first, rest) ← p.parseNot s
  let (operands, rest) ← p.disjointLoop [first] rest
  return (disjointRoot operands, rest)

/-! ## Chains -/

/-- The text is a chain of the operands, up to the text that is left. -/
inductive Chain : List Char → List Node → List Char → Prop
  | last {s rest : List Char} {operand : Node} (hparse : p.parseNot s = .ok (operand, rest))
    (hend : eatKeyword "disjoint" (skipWs rest) = none) : Chain s [operand] (skipWs rest)
  | step {s after s' rest : List Char} {operand : Node} {operands : List Node}
    (hparse : p.parseNot s = .ok (operand, after))
    (hjoin : eatKeyword "disjoint" (skipWs after) = some s') (h : Chain s' operands rest) :
    Chain s (operand :: operands) rest

variable {p}

theorem Chain.disjointLoop_eq {operands : List Node} (h : p.Chain s operands rest) :
    ∃ first others after, operands = first :: others ∧ p.parseNot s = .ok (first, after) ∧
      ∀ before, p.disjointLoop before after = .ok (before ++ others, rest) := by
  induction h with
  | @last s rest operand hparse hend =>
    refine ⟨operand, [], rest, rfl, hparse, fun before => ?_⟩
    rw [disjointLoop]
    split
    · rw [append_nil]
    · next after hafter => cases hend.symm.trans hafter
  | @step s after s' rest operand operands hparse hjoin _ ih =>
    obtain ⟨second, others, after', rfl, hsecond, hloop⟩ := ih
    refine ⟨operand, second :: others, after, rfl, hparse, fun before => ?_⟩
    rw [disjointLoop]
    split
    · next hnone => cases hjoin.symm.trans hnone
    · next t ht =>
      obtain rfl := Option.some.inj (hjoin.symm.trans ht)
      split
      · next operand' rest' hparse' =>
        cases hsecond.symm.trans hparse'
        rw [hloop, append_assoc, singleton_append]
      · next e herror => cases hsecond.symm.trans herror

/-- The parser reads a chain as the node of its operands. -/
theorem Chain.parseDisjoint_eq {operands : List Node}
    (h : p.Chain s operands rest) : p.parseDisjoint s = .ok (disjointRoot operands, rest) := by
  obtain ⟨first, others, after, rfl, hfirst, hloop⟩ := h.disjointLoop_eq
  rw [parseDisjoint, hfirst]
  change (p.disjointLoop [first] after).bind _ = _
  rw [hloop]
  rfl

end PrimaryParser

/-! ## Pairs -/

/-- A symmetric reading of the pairs sees the same ones in every order of the list. -/
theorem map_pairIter_perm {α β : Type} {f : α × α → β} (hf : ∀ a b, f (a, b) = f (b, a))
    {xs ys : List α} (h : xs.Perm ys) : ((pairIter xs).map f).Perm ((pairIter ys).map f) := by
  induction h with
  | nil => exact .nil
  | cons a h ih =>
    simp only [pairIter, map_append, map_map]
    exact (h.map _).append ih
  | swap a b xs =>
    -- The pair of `a` and `b` stays in front; their pairs with the rest change places.
    simp only [pairIter, map_append, map_map, map_cons, cons_append, hf b a]
    refine .cons _ ?_
    rw [← append_assoc, ← append_assoc]
    exact perm_append_comm.append_right _
  | trans _ _ ih ih' => exact ih.trans ih'

theorem pairIter_map {α β : Type} (f : α → β) : ∀ xs : List α,
    pairIter (xs.map f) = (pairIter xs).map fun pair => (f pair.1, f pair.2)
  | [] => rfl
  | a :: xs => by
    simp only [pairIter, map_cons, map_append, map_map, pairIter_map f xs]
    rfl

theorem mem_of_mem_pairIter {α : Type} {a b : α} : ∀ {xs : List α}, (a, b) ∈ pairIter xs →
    a ∈ xs ∧ b ∈ xs
  | [], h => nomatch h
  | x :: xs, h => by
    rcases mem_append.mp h with h | h
    · obtain ⟨y, hy, hpair⟩ := mem_map.mp h
      cases hpair
      exact ⟨mem_cons_self, mem_cons_of_mem _ hy⟩
    · obtain ⟨ha, hb⟩ := mem_of_mem_pairIter h
      exact ⟨mem_cons_of_mem _ ha, mem_cons_of_mem _ hb⟩

/-- Two elements of a list are alike if the element occurs twice. -/
theorem pair_mem_pairIter_iff {α : Type} [DecidableEq α] {a : α} : ∀ {xs : List α},
    (a, a) ∈ pairIter xs ↔ 2 ≤ xs.count a
  | [] => by simp [pairIter]
  | x :: xs => by
    have hrest : (a, a) ∈ pairIter xs ↔ 2 ≤ xs.count a := pair_mem_pairIter_iff
    rw [pairIter, mem_append, hrest, count_cons]
    have hpos : a ∈ xs ↔ 0 < xs.count a := count_pos_iff.symm
    by_cases hx : x = a
    · subst hx
      simp only [mem_map, Prod.mk.injEq, true_and, exists_eq_right, hpos, beq_self_eq_true, if_true]
      omega
    · simp [hx]

/-! ## What a chain says -/

namespace NodeOutcome

theorem andOutcome_eq_pass_iff : ∀ {na : Bool} {os : List NodeOutcome},
    andOutcome na os = .pass ↔ na = false ∧ ∀ o ∈ os, o = .pass
  | na, [] => by cases na <;> simp [andOutcome]
  | na, .pass :: os => by simp [andOutcome, andOutcome_eq_pass_iff]
  | na, .fail :: os => by simp [andOutcome]
  | na, .notApplicable :: os => by
    simp [andOutcome, andOutcome_eq_pass_iff]

theorem andOutcome_singleton (o : NodeOutcome) : andOutcome false [o] = o := by
  cases o <;> rfl

def exclusionOutcome (left right : NodeOutcome) : NodeOutcome :=
  (andOutcome false [left, right]).notOutcome

theorem exclusionOutcome_comm (left right : NodeOutcome) :
    exclusionOutcome left right = exclusionOutcome right left := by
  rw [exclusionOutcome, andOutcome_perm (.swap right left []), exclusionOutcome]

theorem exclusionOutcome_eq_pass_iff {left right : NodeOutcome} (hleft : left ≠ .notApplicable)
    (hright : right ≠ .notApplicable) :
    exclusionOutcome left right = .pass ↔ ¬(left = .pass ∧ right = .pass) := by
  cases left <;> cases right <;> first | contradiction | decide

def disjointOutcome (os : List NodeOutcome) : NodeOutcome :=
  andOutcome false ((pairIter os).map fun pair => exclusionOutcome pair.1 pair.2)

theorem disjointOutcome_perm {os os' : List NodeOutcome} (h : os.Perm os') :
    disjointOutcome os = disjointOutcome os' :=
  andOutcome_perm (map_pairIter_perm (fun a b => exclusionOutcome_comm a b) h)

/-- Where every operand is applicable, the exclusions pass unless some two operands do. -/
theorem disjointOutcome_eq_pass_iff {os : List NodeOutcome} (hna : .notApplicable ∉ os) :
    disjointOutcome os = .pass ↔ os.count .pass ≤ 1 := by
  have happlicable : ∀ o ∈ os, o ≠ .notApplicable := fun o ho heq => hna (heq ▸ ho)
  rw [disjointOutcome, andOutcome_eq_pass_iff, forall_mem_map]
  constructor
  · rintro ⟨-, h⟩
    by_contra hcount
    have hpair := pair_mem_pairIter_iff.mpr (Nat.lt_of_not_le hcount)
    exact absurd (h _ hpair) (by decide)
  · refine fun hcount => ⟨rfl, ?_⟩
    rintro ⟨left, right⟩ hpair
    obtain ⟨hleft, hright⟩ := mem_of_mem_pairIter hpair
    rw [exclusionOutcome_eq_pass_iff (happlicable _ hleft) (happlicable _ hright)]
    rintro ⟨rfl, rfl⟩
    have htwo := pair_mem_pairIter_iff.mp hpair
    omega

end NodeOutcome

namespace PrimaryParser

open NodeOutcome

theorem evalNodes_eq_map {ctx : EvalCtx} (scope : Scope ctx) : ∀ nodes : List Node,
    scope.evalNodes nodes = nodes.map scope.evalNode
  | [] => by rw [Scope.evalNodes, map_nil]
  | node :: nodes => by rw [Scope.evalNodes, map_cons, evalNodes_eq_map scope nodes]

theorem evalNode_exclusion {ctx : EvalCtx} (scope : Scope ctx) (left right : Node) :
    scope.evalNode (exclusion left right) =
      exclusionOutcome (scope.evalNode left) (scope.evalNode right) := by
  simp only [exclusion, Scope.evalNode, Scope.evalNodes, exclusionOutcome]

/-- The node of a chain is the conjunction of its exclusions, also where there is only one. -/
theorem evalNode_disjointRoot {ctx : EvalCtx} (scope : Scope ctx) {operands : List Node}
    (htwo : 2 ≤ operands.length) :
    scope.evalNode (disjointRoot operands) = disjointOutcome (operands.map scope.evalNode) := by
  have hall : disjointOutcome (operands.map scope.evalNode) =
      andOutcome false ((exclusions operands).map scope.evalNode) := by
    rw [disjointOutcome, pairIter_map, exclusions, map_map, map_map]
    simp only [Function.comp_def, evalNode_exclusion]
  rw [hall]
  unfold disjointRoot
  split
  · next operand => simp at htwo
  · next operands _ =>
    split
    · next only honly => rw [honly, map_singleton, andOutcome_singleton]
    · simp only [Scope.evalNode, evalNodes_eq_map]

/-- A text that is a chain of two operands or more is read as an expression that passes, in any
scope where no operand is not applicable, if and only if at most one operand passes there; and
a chain of the same operands in another order has the same outcome in every scope. -/
theorem parseDisjoint_atMostOne (p : PrimaryParser) (s rest : List Char) (operands : List Node)
    (hchain : p.Chain s operands rest) (htwo : 2 ≤ operands.length) :
    ∃ root, p.parseDisjoint s = .ok (root, rest) ∧ ∀ (ctx : EvalCtx) (scope : Scope ctx),
        (.notApplicable ∉ operands.map scope.evalNode →
          (scope.evalNode root = .pass ↔ (operands.map scope.evalNode).count .pass ≤ 1)) ∧
        ∀ (s' rest' : List Char) (operands' : List Node), p.Chain s' operands' rest' →
          operands.Perm operands' → ∃ root', p.parseDisjoint s' = .ok (root', rest') ∧
            scope.evalNode root' = scope.evalNode root := by
  refine ⟨disjointRoot operands, hchain.parseDisjoint_eq, fun ctx scope => ⟨fun hna => ?_, ?_⟩⟩
  · rw [evalNode_disjointRoot scope htwo]
    exact disjointOutcome_eq_pass_iff hna
  · intro s' rest' operands' hchain' hperm
    refine ⟨_, hchain'.parseDisjoint_eq, ?_⟩
    have htwo' : 2 ≤ operands'.length := hperm.length_eq ▸ htwo
    rw [evalNode_disjointRoot scope htwo', evalNode_disjointRoot scope htwo]
    exact disjointOutcome_perm (hperm.symm.map _)

/-- It reads the atom `refCalls` as it is written, and no other. -/
def callsAtom : PrimaryParser where
  parse s :=
    if "kind = 'calls'".toList.isPrefixOf s then
      .ok (.atom refCalls, s.drop "kind = 'calls'".toList.length)
    else .error ⟨.ofList s, "expected atom"⟩
  forward := by
    intro s node rest h
    split_ifs at h
    cases h
    rw [List.length_drop]
    exact Nat.sub_le _ _

theorem parseNot_callsAtom {s after : List Char} (h : eatKeyword "NOT" (skipWs s) = none)
    (hstart : "kind = 'calls'".toList.isPrefixOf (skipWs s) = true)
    (hafter : (skipWs s).drop "kind = 'calls'".toList.length = after) :
    callsAtom.parseNot s = .ok (.atom refCalls, after) := by
  subst hafter
  rw [parseNot]
  split
  · next h' => cases h.symm.trans h'
  · exact if_pos hstart

theorem chain_callsAtom : callsAtom.Chain "kind = 'calls' disjoint kind = 'calls'".toList
      [.atom refCalls, .atom refCalls] [] := by
  have hfirst : callsAtom.parseNot "kind = 'calls' disjoint kind = 'calls'".toList =
      .ok (.atom refCalls, " disjoint kind = 'calls'".toList) :=
    parseNot_callsAtom (by decide) (by decide) (by decide)
  have hjoin : eatKeyword "disjoint" (skipWs " disjoint kind = 'calls'".toList) =
      some " kind = 'calls'".toList := by
    decide
  have hsecond : callsAtom.parseNot " kind = 'calls'".toList = .ok (.atom refCalls, []) :=
    parseNot_callsAtom (by decide) (by decide) (by decide)
  exact .step hfirst hjoin (.last hsecond (by decide))

/-- Two operands that both pass. -/
theorem parseDisjoint_atMostOne_callsAtom :
    ∃ root, callsAtom.parseDisjoint "kind = 'calls' disjoint kind = 'calls'".toList =
      .ok (root, []) ∧ logCall.evalNode root ≠ .pass := by
  obtain ⟨root, hroot, hscope⟩ := callsAtom.parseDisjoint_atMostOne _ _ _ chain_callsAtom
    (by decide)
  have hpass : logCall.evalNode (.atom refCalls) = .pass := by decide
  have hmost := (hscope callsLogCtx logCall).1
  simp only [map_cons, map_nil, hpass] at hmost
  refine ⟨root, hroot, fun h => ?_⟩
  exact absurd ((hmost (by decide)).mp h) (by decide)

end PrimaryParser

end CodeMoniker
