import CodeMoniker.GroupedLists
import CodeMoniker.RuleLogic

/-!
# Collections and the order of hash maps

A collection expression stands for a multiset of values (`CollectionLeaves.multiset`). The
operators count the values of both sides in hash maps and list the merged counts in the order
in which the maps give their keys, which is any order (`CollectionLeaves.Yields`). Sizes and
inclusions read the multiset only. A prefix reads the list, so its verdict depends on the order
unless there is none to choose (`verdict_settled_iff`).

Inside of `pairs(...)` a second evaluator reads a projection of `current` from the definition
at hand (`pairLeaves_iff`).
-/

namespace CodeMoniker

open List GroupedLists

def CollectionOp.merge : CollectionOp → ℕ → ℕ → ℕ
  | .intersect => min
  | .union => max
  | .difference => (· - ·)

def CollectionOp.multiset : CollectionOp → Multiset Value → Multiset Value → Multiset Value
  | .intersect => (· ∩ ·)
  | .union => (· ∪ ·)
  | .difference => (· - ·)

variable (op : CollectionOp)

theorem CollectionOp.count_multiset (s t : Multiset Value) (v : Value) :
    (op.multiset s t).count v = op.merge (s.count v) (t.count v) := by
  cases op
  · exact Multiset.count_inter v s t
  · exact Multiset.count_union v s t
  · exact Multiset.count_sub v s t

theorem CollectionOp.merge_zero : op.merge 0 0 = 0 := by
  cases op <;> rfl

theorem CollectionOp.apply_eq_listing (left right : List Value) : op.apply left right =
      listing (fun v => op.merge (left.count v) (right.count v)) (left ++ right).eraseDups := by
  cases op <;> rfl

/-! ## Values listed once -/

theorem nodup_uniqueValues (vs : List Value) : (uniqueValues vs).Nodup := by
  unfold uniqueValues
  induction h : vs.length using Nat.strong_induction_on generalizing vs with
  | _ n ih =>
    cases vs with
    | nil => exact nodup_nil
    | cons v vs =>
      rw [eraseDups_cons]
      refine nodup_cons.mpr ⟨fun hv => ?_, ih _ ?_ _ rfl⟩
      · simpa using (mem_filter.mp (mem_eraseDups.mp hv)).2
      · rw [← h, length_cons]
        exact Nat.lt_succ_of_le (length_filter_le _ _)

variable {vs : List Value}

theorem mem_uniqueValues {v : Value} : v ∈ uniqueValues vs ↔ v ∈ vs :=
  mem_eraseDups

theorem coe_uniqueValues (vs : List Value) :
    (uniqueValues vs : Multiset Value) = (vs : Multiset Value).dedup := by
  rw [Multiset.coe_dedup, Multiset.coe_eq_coe]
  refine (perm_ext_iff_of_nodup (nodup_uniqueValues vs) vs.nodup_dedup).mpr fun v => ?_
  rw [mem_uniqueValues, mem_dedup]

theorem uniqueValues_listing {f : Value → ℕ} : ∀ {keys : List Value}, keys.Nodup →
    (∀ v ∈ keys, 0 < f v) → uniqueValues (listing f keys) = keys
  | [], _, _ => rfl
  | k :: keys, hnodup, hpos => by
    obtain ⟨hk, hkeys⟩ := nodup_cons.mp hnodup
    obtain ⟨n, hn⟩ := Nat.exists_eq_succ_of_ne_zero (Nat.ne_of_gt (hpos k mem_cons_self))
    have hrest := uniqueValues_listing hkeys fun v hv => hpos v (mem_cons_of_mem _ hv)
    have hblock : (replicate n k).filter (fun b => !b == k) = [] := by simp
    have hothers : (listing f keys).filter (fun b => !b == k) = listing f keys := by
      refine filter_eq_self.mpr fun v hv => ?_
      have hne : v ≠ k := fun heq => hk (heq ▸ (mem_listing.mp hv).1)
      simpa using hne
    rw [listing_cons, hn, replicate_succ, cons_append, uniqueValues, eraseDups_cons,
      filter_append, hblock, hothers, nil_append]
    exact congrArg (k :: ·) hrest

/-! ## Evaluation -/

/-- A binary operator leaves the order open, under `unique` as well. -/
def CollectionExpr.loose : CollectionExpr → Bool
  | .projection _ | .pairProjection _ => false
  | .unique inner => loose inner
  | .binary _ _ _ => true

/-- What a scope gives for the projections of a collection expression. -/
structure CollectionLeaves where
  projection : CollectionProjection → List Value
  pairProjection : PairCollectionProjection → List Value

namespace CollectionLeaves

variable (l : CollectionLeaves)

/-- The lists that an evaluation may give : each binary operator takes the keys of its hash maps
in some order. -/
inductive Yields : CollectionExpr → List Value → Prop
  | projection (p : CollectionProjection) : Yields (.projection p) (l.projection p)
  | pairProjection (p : PairCollectionProjection) : Yields (.pairProjection p) (l.pairProjection p)
  | unique {inner : CollectionExpr} {vs : List Value} (h : Yields inner vs) :
    Yields (.unique inner) (uniqueValues vs)
  | binary (op : CollectionOp) {left right : CollectionExpr} {ls rs : List Value}
    (hl : Yields left ls) (hr : Yields right rs) {keys : List Value} (hnodup : keys.Nodup)
    (hkeys : ∀ v, v ∈ keys ↔ v ∈ ls ++ rs) :
    Yields (.binary op left right)
      (listing (fun v => op.merge (ls.count v) (rs.count v)) keys)

/-- The evaluation that takes the keys in the order in which they occur. -/
def values : CollectionExpr → List Value
  | .projection p => l.projection p
  | .pairProjection p => l.pairProjection p
  | .unique inner => uniqueValues (values inner)
  | .binary op left right => op.apply (values left) (values right)

/-- The meaning of an expression, without any order. -/
def multiset : CollectionExpr → Multiset Value
  | .projection p => l.projection p
  | .pairProjection p => l.pairProjection p
  | .unique inner => (multiset inner).dedup
  | .binary op left right => op.multiset (multiset left) (multiset right)

variable {l}

theorem yields_values : ∀ c : CollectionExpr, l.Yields c (l.values c)
  | .projection p => .projection p
  | .pairProjection p => .pairProjection p
  | .unique inner => .unique (yields_values inner)
  | .binary op left right => by
    rw [values, CollectionOp.apply_eq_listing]
    exact .binary op (yields_values left) (yields_values right) (nodup_uniqueValues _)
      fun _ => mem_uniqueValues

variable {c : CollectionExpr}

/-- Every order of the keys gives the multiset. -/
theorem Yields.coe_eq (h : l.Yields c vs) : (vs : Multiset Value) = l.multiset c := by
  induction h with
  | projection p => rfl
  | pairProjection p => rfl
  | unique h ih => rw [coe_uniqueValues, ih, multiset]
  | @binary op left right ls rs hl hr keys hnodup hkeys ihl ihr =>
    ext v
    rw [multiset, CollectionOp.count_multiset, ← ihl, ← ihr, Multiset.coe_count,
      Multiset.coe_count, Multiset.coe_count, count_listing _ hnodup]
    split_ifs with hv
    · rfl
    · obtain ⟨hvl, hvr⟩ := not_or.mp (mt mem_append.mpr (mt (hkeys v).mpr hv))
      rw [count_eq_zero.mpr hvl, count_eq_zero.mpr hvr, CollectionOp.merge_zero]

theorem Yields.perm {vs vs' : List Value} (h : l.Yields c vs) (h' : l.Yields c vs') : vs.Perm vs' :=
  Multiset.coe_eq_coe.mp (h.coe_eq.trans h'.coe_eq.symm)

theorem isSubset_iff_le {left right : List Value} :
    isSubset left right = true ↔ (left : Multiset Value) ≤ right := by
  simp only [isSubset, all_eq_true, decide_eq_true_eq, Multiset.le_iff_count, Multiset.coe_count]
  refine ⟨fun h v => ?_, fun h v _ => h v⟩
  by_cases hv : v ∈ left
  · exact h v hv
  · rw [count_eq_zero.mpr hv]
    exact Nat.zero_le _

/-! ## The multiset algebra -/

/-- Whatever the orders of the hash maps : an intersection, a union and a difference have the
minimum, the maximum and the truncated difference of the counts, `unique` keeps one of each, a
collection is a subset if and only if nothing is left of the difference, and the sizes add
up. -/
theorem collections_multiset_algebra (l : CollectionLeaves) (a b : CollectionExpr)
    (as bs is us ds qs : List Value) (ha : l.Yields a as) (hb : l.Yields b bs)
    (hi : l.Yields (.binary .intersect a b) is) (hu : l.Yields (.binary .union a b) us)
    (hd : l.Yields (.binary .difference a b) ds) (hq : l.Yields (.unique a) qs) :
    (∀ v, is.count v = min (as.count v) (bs.count v) ∧
      us.count v = max (as.count v) (bs.count v) ∧ ds.count v = as.count v - bs.count v ∧
      qs.count v = if v ∈ as then 1 else 0) ∧
    (isSubset as bs = true ↔ ds = []) ∧ us.length + is.length = as.length + bs.length := by
  have hinter : (is : Multiset Value) = ↑as ∩ ↑bs := by
    rw [hi.coe_eq, multiset, ← ha.coe_eq, ← hb.coe_eq]
    rfl
  have hunion : (us : Multiset Value) = ↑as ∪ ↑bs := by
    rw [hu.coe_eq, multiset, ← ha.coe_eq, ← hb.coe_eq]
    rfl
  have hdiff : (ds : Multiset Value) = ↑as - ↑bs := by
    rw [hd.coe_eq, multiset, ← ha.coe_eq, ← hb.coe_eq]
    rfl
  have huniq : (qs : Multiset Value) = (as : Multiset Value).dedup := by
    rw [hq.coe_eq, multiset, ← ha.coe_eq]
  refine ⟨fun v => ⟨?_, ?_, ?_, ?_⟩, ?_, ?_⟩
  · rw [← Multiset.coe_count, hinter, Multiset.count_inter, Multiset.coe_count, Multiset.coe_count]
  · rw [← Multiset.coe_count, hunion, Multiset.count_union, Multiset.coe_count, Multiset.coe_count]
  · rw [← Multiset.coe_count, hdiff, Multiset.count_sub, Multiset.coe_count, Multiset.coe_count]
  · rw [← Multiset.coe_count, huniq, Multiset.count_dedup]
    rfl
  · rw [isSubset_iff_le, ← tsub_eq_zero_iff_le, ← hdiff, Multiset.coe_eq_zero]
  · rw [← Multiset.coe_card, ← Multiset.coe_card, ← Multiset.coe_card, ← Multiset.coe_card, hunion,
      hinter, ← Multiset.card_add, Multiset.union_add_inter, Multiset.card_add]

/-! ## Which lists an evaluation may give -/

theorem Yields.grouped (h : l.Yields c vs) (hloose : c.loose = true) : Grouped vs := by
  cases h with
  | projection | pairProjection => cases hloose
  | unique h => exact grouped_of_nodup (nodup_uniqueValues _)
  | binary op hl hr hnodup hkeys => exact grouped_listing _ hnodup

theorem Yields.eq_values (h : l.Yields c vs) (hloose : c.loose = false) : vs = l.values c := by
  induction h with
  | projection | pairProjection => rfl
  | unique h ih => rw [values, ih hloose]
  | binary => cases hloose

/-- The inner values can come in the order that is asked for. -/
theorem yields_unique {inner : CollectionExpr}
    (ih : ∀ {vs : List Value}, Arrangement inner.loose (l.values inner) vs → l.Yields inner vs)
    (hloose : inner.loose = true) {vs : List Value}
    (hperm : vs.Perm (uniqueValues (l.values inner))) : l.Yields (.unique inner) vs := by
  have hnodup : vs.Nodup := hperm.nodup_iff.mpr (nodup_uniqueValues _)
  have hmem : ∀ v, v ∈ vs ↔ v ∈ l.values inner := fun v =>
    hperm.mem_iff.trans mem_uniqueValues
  have hinner : l.Yields inner (listing (l.values inner).count vs) := by
    refine ih ?_
    rw [hloose]
    exact ⟨listing_count_perm hnodup fun v hv => (hmem v).mpr hv, grouped_listing _ hnodup⟩
  have hunique := Yields.unique hinner
  rwa [uniqueValues_listing hnodup fun v hv => count_pos_iff.mpr ((hmem v).mp hv)]
    at hunique

/-- The keys of a hash map can come in the order that is asked for. -/
theorem yields_binary {op : CollectionOp} {left right : CollectionExpr} {vs : List Value}
    (hperm : vs.Perm (l.values (.binary op left right))) (hgrouped : Grouped vs) :
    l.Yields (.binary op left right) vs := by
  obtain ⟨keys, hnodup, hmem, hvs⟩ := hgrouped
  let f := fun v => op.merge ((l.values left).count v) ((l.values right).count v)
  have hcount : ∀ v, vs.count v = f v := by
    intro v
    have hcoe : (vs : Multiset Value) = l.multiset (.binary op left right) :=
      (Multiset.coe_eq_coe.mpr hperm).trans (yields_values _).coe_eq
    rw [← Multiset.coe_count, hcoe, multiset, CollectionOp.count_multiset,
      ← (yields_values left).coe_eq, ← (yields_values right).coe_eq, Multiset.coe_count,
      Multiset.coe_count]
  -- Keys that are listed no time come behind the others.
  let silent := (uniqueValues (l.values left ++ l.values right)).filter fun v => v ∉ vs
  have hall : (keys ++ silent).Nodup := by
    refine nodup_append.mpr ⟨hnodup, (nodup_uniqueValues _).filter _, ?_⟩
    rintro v hv w hw rfl
    exact absurd ((hmem v).mp hv) (by simpa using (mem_filter.mp hw).2)
  have hsilent : listing f silent = [] := by
    refine eq_nil_iff_forall_not_mem.mpr fun v hv => ?_
    obtain ⟨hsil, hpos⟩ := mem_listing.mp hv
    rw [← hcount v] at hpos
    exact absurd (count_pos_iff.mp hpos) (by simpa using (mem_filter.mp hsil).2)
  have hkeys : ∀ v, v ∈ keys ++ silent ↔ v ∈ l.values left ++ l.values right := by
    intro v
    have hin : v ∈ vs → v ∈ l.values left ++ l.values right := by
      intro hv
      have hv' := hperm.mem_iff.mp hv
      rw [values, CollectionOp.apply_eq_listing] at hv'
      exact mem_eraseDups.mp (mem_listing.mp hv').1
    rw [mem_append, hmem, mem_filter, mem_uniqueValues]
    by_cases hv : v ∈ vs
    · exact iff_of_true (Or.inl hv) (hin hv)
    · simp [hv]
  have hyields := Yields.binary op (yields_values left) (yields_values right) hall hkeys
  rw [listing_append] at hyields
  change l.Yields _ (listing f keys ++ listing f silent) at hyields
  rw [hsilent, append_nil, ← listing_congr fun v _ => hcount v] at hyields
  rwa [hvs]

/-- An evaluation may give any order of the blocks, if the order is open at all. -/
theorem yields_iff : ∀ {c : CollectionExpr} {vs : List Value},
    l.Yields c vs ↔ Arrangement c.loose (l.values c) vs := by
  have hforward : ∀ {c : CollectionExpr} {vs : List Value}, l.Yields c vs →
      Arrangement c.loose (l.values c) vs := by
    intro c vs h
    cases hloose : c.loose with
    | false => exact h.eq_values hloose
    | true => exact ⟨h.perm (yields_values c), h.grouped hloose⟩
  refine fun {c vs} => ⟨hforward, fun h => ?_⟩
  induction c generalizing vs with
  | projection | pairProjection =>
    obtain rfl : vs = _ := h
    exact yields_values _
  | unique inner ih =>
    cases hloose : inner.loose with
    | false =>
      rw [CollectionExpr.loose, hloose] at h
      obtain rfl : vs = _ := h
      exact yields_values _
    | true =>
      rw [CollectionExpr.loose, hloose] at h
      exact yields_unique ih hloose h.1
  | binary op left right ihl ihr => exact yields_binary h.1 h.2

/-! ## Verdicts -/

variable (l)

def SizeSettled (c : CollectionExpr) : Prop :=
  ∀ vs vs' : List Value, l.Yields c vs → l.Yields c vs' → vs.length = vs'.length

/-- The verdict of a comparison is the same whatever the orders of the hash maps. -/
def VerdictSettled (op : Op) (left right : CollectionExpr) : Prop :=
  ∀ ls ls' rs rs' : List Value, l.Yields left ls → l.Yields left ls' → l.Yields right rs →
    l.Yields right rs' → compareCollections op ls rs = compareCollections op ls' rs'

variable {l}

theorem isSubset_congr {ls ls' rs rs' : List Value} (hl : ls.Perm ls') (hr : rs.Perm rs') :
    isSubset ls rs = isSubset ls' rs' := by
  rw [Bool.eq_iff_iff, isSubset_iff_le, isSubset_iff_le, Multiset.coe_eq_coe.mpr hl,
    Multiset.coe_eq_coe.mpr hr]

theorem prefixSettled_iff {left right : CollectionExpr} : l.VerdictSettled .isPrefix left right ↔
      l.values left = [] ∨ (Fixed left.loose (l.values left) ∧ Fixed right.loose (l.values right)) ∨
      ¬MayBegin left.loose right.loose (l.values left) (l.values right) := by
  have hverdict : ∀ ls rs : List Value,
      compareCollections .isPrefix ls rs = true ↔ ls <+: rs := fun ls rs =>
    List.isPrefixOf_iff_prefix
  rw [← begins_settled_iff]
  constructor
  · intro h ls ls' rs rs' hls hls' hrs hrs'
    rw [← hverdict, ← hverdict, h ls ls' rs rs' (yields_iff.mpr hls) (yields_iff.mpr hls')
      (yields_iff.mpr hrs) (yields_iff.mpr hrs')]
  · intro h ls ls' rs rs' hls hls' hrs hrs'
    rw [Bool.eq_iff_iff, hverdict, hverdict]
    exact h ls ls' rs rs' (yields_iff.mp hls) (yields_iff.mp hls') (yields_iff.mp hrs)
      (yields_iff.mp hrs')

/-- The sizes of both sides and the verdict do not depend on the order of a hash map if and only
if the comparison is an inclusion, or a prefix whose left side is empty, or one where no side
has an order to choose, or one that no order makes true. -/
theorem verdict_settled_iff (l : CollectionLeaves) (op : Op) (left right : CollectionExpr) :
    (l.SizeSettled left ∧ l.SizeSettled right ∧ l.VerdictSettled op left right) ↔
      (op ≠ .isPrefix ∨ l.values left = [] ∨
        (Fixed left.loose (l.values left) ∧ Fixed right.loose (l.values right)) ∨
        ¬MayBegin left.loose right.loose (l.values left) (l.values right)) := by
  have hsize : ∀ c, l.SizeSettled c := fun c vs vs' h h' => (h.perm h').length_eq
  by_cases hop : op = .isPrefix
  · subst hop
    rw [prefixSettled_iff]
    simp [hsize]
  · refine iff_of_true ⟨hsize left, hsize right, ?_⟩ (Or.inl hop)
    intro ls ls' rs rs' hls hls' hrs hrs'
    rw [compareCollections, compareCollections, if_neg hop, if_neg hop]
    exact isSubset_congr (hls.perm hls') (hrs.perm hrs')

end CollectionLeaves

/-! ## The two evaluators -/

/-- The projections of an expression, other than those of a pair. -/
def CollectionExpr.projections : CollectionExpr → List CollectionProjection
  | .projection p => [p]
  | .pairProjection _ => []
  | .unique inner => projections inner
  | .binary _ left right => projections left ++ projections right

/-- Where no pair binding occurs, only the projections matter. -/
theorem CollectionLeaves.Yields.congr {l l' : CollectionLeaves} {c : CollectionExpr}
    {vs : List Value} (h : l.Yields c vs) (hpair : collectionHasPairBinding c = false)
    (hleaves : ∀ p ∈ c.projections, l.projection p = l'.projection p) : l'.Yields c vs := by
  induction h with
  | projection p =>
    rw [hleaves p mem_cons_self]
    exact .projection p
  | pairProjection p => cases hpair
  | unique h ih => exact .unique (ih hpair hleaves)
  | binary op hl hr hnodup hkeys ihl ihr =>
    obtain ⟨hpairl, hpairr⟩ := Bool.or_eq_false_iff.mp hpair
    exact .binary op (ihl hpairl fun p hp => hleaves p (mem_append_left _ hp))
      (ihr hpairr fun p hp => hleaves p (mem_append_right _ hp)) hnodup hkeys

open CollectionLeaves

namespace EvalCtx

variable (ctx : EvalCtx)

/-- What `eval_collection` reads for a definition. -/
def defLeaves (i self : ctx.DefIdx) : CollectionLeaves where
  projection p := ctx.collectProjection p.domain p.path (if p.current then self else i)
  pairProjection _ := []

/-- What `eval_pair_collection` reads for a pair of items of a definition. -/
def pairLeaves (a b : DomainItem ctx) (i : ctx.DefIdx) : CollectionLeaves where
  projection p := ctx.collectProjection p.domain p.path i
  pairProjection p := ctx.collectPairProjection p a b

theorem evalCollection_eq_values (i self : ctx.DefIdx) : ∀ c : CollectionExpr,
    ctx.evalCollection i self c = (ctx.defLeaves i self).values c
  | .projection p => by rw [evalCollection, values, defLeaves]
  | .pairProjection p => by rw [evalCollection, values, defLeaves]
  | .unique inner => by
    rw [evalCollection, values, evalCollection_eq_values i self inner]
  | .binary op left right => by
    rw [evalCollection, values, evalCollection_eq_values i self left,
      evalCollection_eq_values i self right]

theorem evalPairCollection_eq_values (a b : DomainItem ctx) (i : ctx.DefIdx) :
    ∀ c : CollectionExpr, ctx.evalPairCollection a b i c = (ctx.pairLeaves a b i).values c
  | .projection p => by rw [evalPairCollection, values, pairLeaves]
  | .pairProjection p => by rw [evalPairCollection, values, pairLeaves]
  | .unique inner => by
    rw [evalPairCollection, values, evalPairCollection_eq_values a b i inner]
  | .binary op left right => by
    rw [evalPairCollection, values, evalPairCollection_eq_values a b i left,
      evalPairCollection_eq_values a b i right]

/-- Every collection without a pair binding has the same values for a pair of items as for the
definition if and only if every projection from the definition at hand gives what it gives from
`self`. One collection has them as soon as its own projections of `current`, if any, do so. -/
theorem pairLeaves_iff (a b : DomainItem ctx) (i self : ctx.DefIdx) :
    ((∀ c : CollectionExpr, collectionHasPairBinding c = false → ∀ vs : List Value,
        (ctx.pairLeaves a b i).Yields c vs ↔ (ctx.defLeaves i self).Yields c vs) ↔
      ∀ (domain : Domain) (path : List String),
        ctx.collectProjection domain path i = ctx.collectProjection domain path self) ∧
    ∀ c : CollectionExpr, collectionHasPairBinding c = false →
      (∀ p ∈ c.projections, p.current = true →
        ctx.collectProjection p.domain p.path i = ctx.collectProjection p.domain p.path self) →
      ∀ vs : List Value,
        (ctx.pairLeaves a b i).Yields c vs ↔ (ctx.defLeaves i self).Yields c vs := by
  refine (and_iff_right_of_imp fun hown => ⟨fun h domain path => ?_, fun h c hpair =>
    hown c hpair fun p _ _ => h p.domain p.path⟩).mpr fun c hpair hcurrent vs => ?_
  · have hleaves : ∀ p ∈ c.projections,
        (ctx.pairLeaves a b i).projection p = (ctx.defLeaves i self).projection p := by
      intro p hp
      rw [pairLeaves, defLeaves]
      dsimp only
      split_ifs with hself
      · exact hcurrent p hp hself
      · rfl
    exact ⟨fun h => h.congr hpair hleaves, fun h => h.congr hpair fun p hp => (hleaves p hp).symm⟩
  · have hyields := (h (.projection ⟨true, domain, path⟩) rfl _).mp (.projection _)
    exact hyields.eq_values rfl

end EvalCtx

/-! ## A module that calls and uses -/

open CodeGraphEncoding

/-- The function `report` of the module `util`. -/
def reportFunction : Moniker :=
  .ofParts (byteString "app")
    [⟨byteString "path", byteString "util"⟩, ⟨byteString "fn", byteString "report"⟩]
    admitted_app (by decide)

/-- The module calls `log` and uses it as a type; its function does nothing. -/
def reporting : CodeGraph :=
  CodeGraph.fromRecords
    [{ moniker := utilModule, kind := byteString "module", parent := none, position := none,
       visibility := [], signature := [], callName := [], callArity := none,
       binding := [], origin := [] },
     { moniker := reportFunction, kind := byteString "fn", parent := some 0, position := none,
       visibility := [], signature := [], callName := [], callArity := none,
       binding := [], origin := [] }]
    [{ source := 0, target := logFunction, kind := byteString "calls", position := none,
       receiverHint := [], aliasName := [], confidence := [], callName := [], callArity := none,
       binding := [] },
     { source := 0, target := logFunction, kind := byteString "uses_type", position := none,
       receiverHint := [], aliasName := [], confidence := [], callName := [], callArity := none,
       binding := [] }]

theorem parentOf_reporting {i p : ℕ} (h : reporting.parentOf i = some p) : i = 1 ∧ p = 0 := by
  match i with
  | 0 => cases h
  | 1 => exact ⟨rfl, (Option.some.inj h).symm⟩
  | _ + 2 => cases h

theorem closed_reporting : reporting.Closed where
  sources := by decide
  parents := by
    intro i p hp
    obtain ⟨rfl, rfl⟩ := parentOf_reporting hp
    decide
  acyclic := by
    intro i hi
    obtain ⟨p, hp, hrest⟩ := Relation.TransGen.head'_iff.mp hi
    obtain ⟨rfl, rfl⟩ := parentOf_reporting hp
    rcases Relation.ReflTransGen.cases_head hrest with heq | ⟨q, hq, -⟩
    · cases heq
    · cases (parentOf_reporting hq).1

def reportingCtx : EvalCtx := { callsLogCtx with graph := reporting, closed := closed_reporting }

/-- `out_refs.kind`, and from the definition that opened the quantifier. -/
def outKinds (current : Bool) : CollectionExpr := .projection ⟨current, .outRefs, ["kind"]⟩

def reportingModule : CollectionLeaves :=
  reportingCtx.defLeaves ⟨0, by decide⟩ ⟨0, by decide⟩

theorem reportingModule_outKinds :
    reportingModule.values (outKinds false) = [.str "calls", .str "uses_type"] := by
  decide

namespace CollectionLeaves

theorem collections_multiset_algebra_reporting :
    (reportingModule.values (.binary .union (outKinds false) (outKinds false))).length +
      (reportingModule.values (.binary .intersect (outKinds false) (outKinds false))).length =
      2 + 2 := by
  have hsize := (collections_multiset_algebra reportingModule (outKinds false) (outKinds false)
    _ _ _ _ _ _ (yields_values _) (yields_values _) (yields_values _) (yields_values _)
    (yields_values _) (yields_values _)).2.2
  rw [hsize, reportingModule_outKinds]
  rfl

/-- `out_refs.kind union out_refs.kind prefix out_refs.kind` holds in one order of the two kinds
and fails in the other. -/
theorem not_verdictSettled_reporting : ¬reportingModule.VerdictSettled .isPrefix
      (.binary .union (outKinds false) (outKinds false)) (outKinds false) := by
  intro h
  have hyields : ∀ keys : List Value, keys.Perm [.str "calls", .str "uses_type"] →
      reportingModule.Yields (.binary .union (outKinds false) (outKinds false)) keys := by
    intro keys hkeys
    have hnodup : keys.Nodup := hkeys.nodup_iff.mpr (by decide)
    refine yields_iff.mpr ⟨?_, grouped_of_nodup hnodup⟩
    rw [values, reportingModule_outKinds]
    exact hkeys.trans (by decide)
  have hright : reportingModule.Yields (outKinds false) [.str "calls", .str "uses_type"] := by
    rw [← reportingModule_outKinds]
    exact yields_values _
  have hverdict := h [.str "calls", .str "uses_type"] [.str "uses_type", .str "calls"] _ _
    (hyields _ .rfl) (hyields _ (.swap _ _ _)) hright hright
  exact absurd hverdict (by decide)

end CollectionLeaves

/-- For the pair of segments of `report`, while the quantifier was opened at the module,
`current.out_refs.kind` is read from `report`. -/
theorem not_pairLeaves_reporting :
    reportingCtx.evalPairCollection (.segment ⟨byteString "path", byteString "util"⟩)
        (.segment ⟨byteString "fn", byteString "report"⟩) ⟨1, by decide⟩ (outKinds true) = [] ∧
      reportingCtx.evalCollection ⟨1, by decide⟩ ⟨0, by decide⟩ (outKinds true) =
        [.str "calls", .str "uses_type"] := by
  constructor <;> decide

end CodeMoniker
