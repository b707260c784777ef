import CodeMoniker.DiffReports

/-!
# Every reference is accounted for

Both passes of `pairRefs` go over the old slots and take the last new reference with a key out of
its slot. `Matching` says what such a pass leaves : the pairs and the slots make up both sides,
the pairs have the key, and no key is left on both sides. The cancelling pass matches raw keys,
so it takes a key as often as both sides have it (`countP_cancelled`). The retargeting pass
matches mapped keys.

A key is mapped by replacing the longest renamed ancestor of its monikers
(`RenameContext.apply_spec`). The spliced bytes are always those of a moniker.
-/

namespace CodeMoniker

open List Option ByteCodec Traversals Moniker

/-! ## Renamed monikers -/

namespace RenameContext

/-- The pair is the first of those whose old moniker is the longest ancestor of the target. -/
structure Longest (pairs : List (Moniker × Moniker)) (target : Moniker)
    (pair : Moniker × Moniker) : Prop where
  first : ∃ before after, pairs = before ++ pair :: after ∧ ∀ q ∈ before, q.1 ≠ pair.1
  ancestor : pair.1.isAncestorOf target = true
  longest : ∀ q ∈ pairs, q.1.isAncestorOf target = true → q.1.isAncestorOf pair.1 = true

theorem prefix_bytes_of_isAncestorOf {m other : Moniker} (h : m.isAncestorOf other = true) :
    m.project = other.project ∧ m.bytes <+: other.bytes := by
  simpa only [isAncestorOf, Bool.and_eq_true, decide_eq_true_eq, List.isPrefixOf_iff_prefix] using h

/-- Of two ancestors of a moniker the shorter one is an ancestor of the other. -/
theorem isAncestorOf_of_length_le {a b target : Moniker} (ha : a.isAncestorOf target = true)
    (hb : b.isAncestorOf target = true) (hle : a.bytes.length ≤ b.bytes.length) :
    a.isAncestorOf b = true := by
  obtain ⟨hpa, hba⟩ := prefix_bytes_of_isAncestorOf ha
  obtain ⟨hpb, hbb⟩ := prefix_bytes_of_isAncestorOf hb
  simp only [isAncestorOf, Bool.and_eq_true, decide_eq_true_eq, List.isPrefixOf_iff_prefix]
  exact ⟨hpa.trans hpb.symm, prefix_of_prefix_length_le hba hbb hle⟩

theorem Longest.concat {pairs : List (Moniker × Moniker)} {target : Moniker}
    {kept pair : Moniker × Moniker} (h : Longest pairs target kept)
    (hle : pair.1.isAncestorOf target = true → pair.1.bytes.length ≤ kept.1.bytes.length) :
    Longest (pairs ++ [pair]) target kept := by
  obtain ⟨before, after, rfl, hne⟩ := h.first
  refine ⟨⟨before, after ++ [pair], by simp, hne⟩, h.ancestor, fun q hq hanc => ?_⟩
  rcases mem_append.mp hq with hq | hq
  · exact h.longest q hq hanc
  · obtain rfl := mem_singleton.mp hq
    exact isAncestorOf_of_length_le hanc h.ancestor (hle hanc)

end RenameContext

/-! ## Passes over the slots -/

/-- What is left in the slots. -/
def RefSlots.facts (slots : RefSlots) : List RefFact := slots.filterMap id

/-- A pass has taken pairs with a key out of the slots, until no key was left on both sides. -/
structure Matching (key : RefFact → Option RefKey) (old new old' new' : RefSlots)
    (pairs : List (RefFact × RefFact)) : Prop where
  oldFacts : old.facts.Perm (pairs.map (·.1) ++ old'.facts)
  newFacts : new.facts.Perm (pairs.map (·.2) ++ new'.facts)
  keyed : ∀ p ∈ pairs, key p.1 = some p.2.rawKey
  exhausted : ∀ o ∈ old'.facts, ∀ n ∈ new'.facts, key o ≠ some n.rawKey

namespace Matching

variable {key : RefFact → Option RefKey} {old new old' new' : RefSlots}
  {pairs : List (RefFact × RefFact)}

theorem nil (key : RefFact → Option RefKey) (new : RefSlots) : Matching key [] new [] new [] where
  oldFacts := .refl _
  newFacts := .refl _
  keyed _ hp := nomatch hp
  exhausted _ ho := nomatch ho

theorem skip (h : Matching key old new old' new' pairs) :
    Matching key (none :: old) new (none :: old') new' pairs := ⟨h.oldFacts, h.newFacts, h.keyed, h.exhausted⟩

/-- A fact whose key no slot holds stays. -/
theorem stay (h : Matching key old new old' new' pairs) {fact : RefFact}
    (hmiss : ∀ n ∈ new.facts, key fact ≠ some n.rawKey) :
    Matching key (some fact :: old) new (some fact :: old') new' pairs where
  oldFacts := (h.oldFacts.cons fact).trans perm_middle.symm
  newFacts := h.newFacts
  keyed := h.keyed
  exhausted o ho n hn := by
    rcases mem_cons.mp ho with rfl | ho
    · exact hmiss n (h.newFacts.mem_iff.mpr (mem_append_right _ hn))
    · exact h.exhausted o ho n hn

/-- A fact is paired with the slot of its key. -/
theorem take {i : ℕ} (h : Matching key old (new.set i none) old' new' pairs) {fact fact' : RefFact}
    (hslot : new[i]?.join = some fact') (hkey : key fact = some fact'.rawKey) :
    Matching key (some fact :: old) new (none :: old') new' ((fact, fact') :: pairs) where
  oldFacts := h.oldFacts.cons fact
  newFacts := (perm_filterMap_id_set hslot).trans (h.newFacts.cons fact')
  keyed p hp := by
    rcases mem_cons.mp hp with rfl | hp
    · exact hkey
    · exact h.keyed p hp
  exhausted := h.exhausted

end Matching

/-- What a moniker is mapped to. -/
def RenameContext.renamed (ctx : RenameContext) (m : Moniker) : Moniker := (ctx.apply m).getD m

/-- Where the references of two sides end up. -/
structure RefLedger where
  cancelled : List (RefFact × RefFact)
  retargeted : List (RefFact × RefFact)
  removed : List RefFact
  added : List RefFact

/-- The ledger accounts for the facts of both sides and for the changes. -/
structure RefLedger.Accounts (ledger : RefLedger) (base current : FileSide)
    (oldFacts newFacts : List RefFact) (changes : List RefChange) : Prop where
  /-- Every base reference is cancelled, retargeted or removed. -/
  oldPlaces : oldFacts.Perm
    (ledger.cancelled.map (·.1) ++ (ledger.retargeted.map (·.1) ++ ledger.removed))
  /-- Every current reference is cancelled, retargeted or added. -/
  newPlaces : newFacts.Perm
    (ledger.cancelled.map (·.2) ++ (ledger.retargeted.map (·.2) ++ ledger.added))
  changes : changes =
    ledger.retargeted.map (fun p => retargetChange current.filePath p.1 p.2) ++
      ledger.removed.map (removedRef base.filePath) ++
      ledger.added.map (addedRef current.filePath)
  cancels : ∀ p ∈ ledger.cancelled, p.1.rawKey = p.2.rawKey
  /-- A key is cancelled as often as both sides have it. -/
  counts : ∀ key, ledger.cancelled.countP (fun p => p.1.rawKey = key) =
    min (oldFacts.countP fun fact => fact.rawKey = key)
      (newFacts.countP fun fact => fact.rawKey = key)
  retargets : ∀ p ∈ ledger.retargeted, p.1.mappedKey = some p.2.rawKey
  /-- No reference is removed whose key, as it is or mapped, is added. -/
  exhausted : ∀ o ∈ ledger.removed, ∀ n ∈ ledger.added,
    o.rawKey ≠ n.rawKey ∧ o.mappedKey ≠ some n.rawKey

theorem exists_collectRefFacts {file : FileSide} (ctx : Option RenameContext)
    (h : ∀ r ∈ file.graph.refs, r.source < file.graph.defs.length) :
    ∃ facts, file.graph.refs.mapM (refFact file (LineIndex.new file.source) ctx) = some facts := by
  have hall : ∀ r ∈ file.graph.refs, ∃ r' fact, some r = some r' ∧
      refFact file (LineIndex.new file.source) ctx r' = some fact ∧ True := by
    intro r hr
    obtain ⟨owner, howner⟩ : ∃ d, file.graph.defAt r.source = some d :=
      ⟨_, getElem?_eq_getElem (h r hr)⟩
    exact ⟨r, _, rfl, by rw [refFact, howner]; rfl, trivial⟩
  obtain ⟨facts, hfacts, -⟩ := mapM_filterMap (R := fun _ _ => True) hall
  rw [filterMap_some] at hfacts
  exact ⟨facts, hfacts⟩

/-- The changes in terms of the two passes. -/
theorem pairRefs_eq {base current : FileSide} {ctx : RenameContext} {oldFacts newFacts : List RefFact}
    (hold : base.graph.refs.mapM (refFact base (LineIndex.new base.source) (some ctx)) =
      some oldFacts)
    (hnew : current.graph.refs.mapM (refFact current (LineIndex.new current.source) none) =
      some newFacts) : pairRefs base current ctx =
      let left := cancelUnchanged (newFacts.map some) (oldFacts.map some)
      let rest := pairRetargets current.filePath left.2 left.1
      some (rest.2.2 ++ (RefSlots.facts rest.1).map (removedRef base.filePath) ++
        (RefSlots.facts rest.2.1).map (addedRef current.filePath)) := by
  rw [pairRefs, collectRefFacts, collectRefFacts, hold, hnew]
  rfl

end CodeMoniker
