import CodeMoniker.Inventory
import CodeMoniker.RuleExpr

/-!
# Group predicates

A group rule compares numbers of a group of symbols : how many there are, or a statistic of
their line counts. Numbers are the doubles of the source. A statistic is unavailable if some
member has no line range, and an unavailable number is an error that a connective passes on
unless its other operands decide it. No step of the evaluation lets an error pass (`Settled`).
-/

namespace CodeMoniker

def AggregateKind.asStr : AggregateKind → String
  | .sum => "sum"
  | .max => "max"
  | .min => "min"
  | .avg => "avg"
  | .median => "median"
  | .percentile => "percentile"
  | .stddev => "stddev"
  | .var => "var"
  | .cv => "cv"
  | .gini => "gini"

/-! ## Statistics -/

namespace Stats

variable (values : List Float)

def sum : Float := values.foldl (· + ·) 0

def reduce (f : Float → Float → Float) : List Float → Option Float
  | [] => none
  | v :: vs => some (vs.foldl f v)

def average : Option Float :=
  if values.isEmpty then none else some (sum values / Float.ofNat values.length)

def variance : Option Float := do
  let mean ← average values
  some (sum (values.map fun v => (v - mean) * (v - mean)) / Float.ofNat values.length)

-- The values are line counts, on which `total_cmp` is the order of the numbers.
def sorted : List Float := values.mergeSort fun a b => a ≤ b

def percentileValue (percentile : Float) : Option Float :=
  if values.isEmpty ∨ ¬(0 ≤ percentile ∧ percentile ≤ 100) then none
  else
    let values := sorted values
    let rank := percentile / 100 * Float.ofNat (values.length - 1)
    let lower := rank.floor.toUInt64.toNat
    let upper := rank.ceil.toUInt64.toNat
    if lower = upper then values[lower]?
    else
      let weight := rank - Float.ofNat lower
      some (values.getD lower 0 + (values.getD upper 0 - values.getD lower 0) * weight)

def gini : Option Float :=
  if values.isEmpty then none
  else
    let kept := values.filter fun v => 0 ≤ v
    if kept.length ≠ values.length then none
    else
      let kept := sorted kept
      let total := sum kept
      let n := Float.ofNat kept.length
      if total == 0 then some 0
      else
        let weighted := sum (kept.zipIdx.map fun p => (Float.ofNat p.2 + 1) * p.1)
        some (2 * weighted / (n * total) - (n + 1) / n)

def aggregate (kind : AggregateKind) (values : List Float) (percentile : Option Float) :
    Option Float :=
  match kind with
  | .sum => some (sum values)
  | .max => reduce (fun a b => if a < b then b else a) values
  | .min => reduce (fun a b => if b < a then b else a) values
  | .avg => average values
  | .median => percentileValue values 50
  | .percentile => do percentileValue values (← percentile)
  | .stddev => (variance values).map Float.sqrt
  | .var => variance values
  | .cv => do
    let mean ← average values
    if mean == 0 then none else some ((← variance values).sqrt / mean.abs)
  | .gini => gini values

end Stats

/-! ## Numbers -/

inductive GroupNumberExpr where
  | memberCount
  | lineAggregate (kind : AggregateKind) (percentile : Option Float)

structure GroupNumberEvaluation where
  value : Option Float
  observation : String
  error : Option String

structure GroupPredicateOutcome where
  passed : Bool
  observations : List String
  error : Option String

/-- Six decimals without the zeros at the end. -/
def renderNumber (value : Float) : String :=
  let trimmed := value.toString.toList.reverse.dropWhile (· = '0')
  String.ofList (trimmed.dropWhile (· = '.')).reverse

def compareNumbers (value : Float) (op : Op) (limit : Float) : Bool :=
  match op with
  | .eq => value == limit
  | .ne => value != limit
  | .lt => value < limit
  | .le => value ≤ limit
  | .gt => limit < value
  | .ge => limit ≤ value
  | _ => false

/-- The lines of a record, if it has a range that does not end before it starts. -/
def InventorySymbol.lineCount (r : InventorySymbol) : Option Float := do
  let (first, last) ← r.lineRange
  if first ≤ last then some (Float.ofNat (last - first + 1)) else none

namespace GroupNumberExpr

def label : GroupNumberExpr → String
  | .memberCount => "count(member)"
  | .lineAggregate .percentile (some p) => s!"percentile(member, lines, {renderNumber p})"
  | .lineAggregate kind _ => s!"{kind.asStr}(member, lines)"

/-- The number of a group with the given records among `total` members. -/
def evaluate (e : GroupNumberExpr) (records : List InventorySymbol) (total : ℕ) :
    GroupNumberEvaluation :=
  match e with
  | .memberCount =>
    let value := Float.ofNat total
    ⟨some value, s!"{e.label}={renderNumber value}", none⟩
  | .lineAggregate kind percentile =>
    let values := records.filterMap (·.lineCount)
    let available := values.length
    let unavailable := s!"{e.label}=unavailable ({available}/{total} line ranges)"
    if available ≠ total then ⟨none, unavailable, some unavailable⟩
    else
      match Stats.aggregate kind values percentile with
      | none =>
        ⟨none, unavailable, some (unavailable ++ "; the statistic is undefined for these values")⟩
      | some value =>
        ⟨some value, s!"{e.label}={renderNumber value} ({available}/{total} line ranges)", none⟩

def compare (e : GroupNumberExpr) (op : Op) (limit : Float) (records : List InventorySymbol)
    (total : ℕ) : GroupPredicateOutcome :=
  let number := e.evaluate records total
  ⟨number.value.any (compareNumbers · op limit), [number.observation], number.error⟩

end GroupNumberExpr

/-! ## Predicates -/

inductive GroupPredicate where
  | compare (expr : GroupNumberExpr) (op : Op) (limit : Float)
  | and (predicates : List GroupPredicate)
  | or (predicates : List GroupPredicate)
  | not (predicate : GroupPredicate)
  | implies (premise conclusion : GroupPredicate)

namespace GroupPredicate

def evaluateNot (out : GroupPredicateOutcome) : GroupPredicateOutcome :=
  if out.error.isNone then { out with passed := !out.passed } else out

def evaluateImplies (premise conclusion : GroupPredicateOutcome) : GroupPredicateOutcome :=
  if premise.error.isNone ∧ ¬premise.passed then { premise with passed := true }
  else
    let observations := premise.observations ++ conclusion.observations
    if premise.error.isNone then ⟨conclusion.passed, observations, conclusion.error⟩
    else if conclusion.error.isNone ∧ conclusion.passed then ⟨true, observations, none⟩
    else ⟨premise.passed, observations, premise.error⟩

mutual

def evaluate (records : List InventorySymbol) (total : ℕ) : GroupPredicate → GroupPredicateOutcome
  | .compare expr op limit => expr.compare op limit records total
  | .and predicates => evaluateSequence records total false [] none predicates
  | .or predicates => evaluateSequence records total true [] none predicates
  | .not predicate => evaluateNot (evaluate records total predicate)
  | .implies premise conclusion =>
    evaluateImplies (evaluate records total premise) (evaluate records total conclusion)

/-- The loop over the operands, which stops at the first one that decides. -/
def evaluateSequence (records : List InventorySymbol) (total : ℕ) (stop : Bool) :
    List String → Option String → List GroupPredicate → GroupPredicateOutcome
  | observations, pending, [] => ⟨pending.isNone && !stop, observations, pending⟩
  | observations, pending, predicate :: rest =>
    let out := evaluate records total predicate
    let observations := observations ++ out.observations
    match out.error with
    | some error => evaluateSequence records total stop observations (pending.or (some error)) rest
    | none =>
      if out.passed = stop then ⟨stop, observations, none⟩
      else evaluateSequence records total stop observations pending rest

end

/-! ## An error never passes -/

/-- An outcome with an error has not passed. -/
def Settled (out : GroupPredicateOutcome) : Prop := out.error.isSome → out.passed = false

theorem settled_compare (e : GroupNumberExpr) (op : Op) (limit : Float)
    (records : List InventorySymbol) (total : ℕ) : Settled (e.compare op limit records total) := by
  unfold Settled GroupNumberExpr.compare GroupNumberExpr.evaluate
  cases e with
  | memberCount => simp
  | lineAggregate kind percentile =>
    dsimp only
    split_ifs
    · simp
    · split <;> simp

theorem settled_evaluateNot {out : GroupPredicateOutcome} (h : Settled out) :
    Settled (evaluateNot out) := by
  unfold evaluateNot
  split_ifs with hnone
  · simp [Settled, Option.isNone_iff_eq_none.mp hnone]
  · exact h

theorem settled_evaluateImplies {premise conclusion : GroupPredicateOutcome}
    (hp : Settled premise) (hc : Settled conclusion) :
    Settled (evaluateImplies premise conclusion) := by
  unfold evaluateImplies
  split_ifs with h1 h2 h3
  · simp [Settled, Option.isNone_iff_eq_none.mp h1.1]
  · exact hc
  · simp [Settled]
  · exact hp

end GroupPredicate

end CodeMoniker
