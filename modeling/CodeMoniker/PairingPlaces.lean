import CodeMoniker.SemanticPairing
import CodeMoniker.Traversals

/-!
# Where the definitions of a file end up

Every stage of the pairing takes definitions out of slots and puts them into pairs, so a
definition is always in exactly one place (`PairingState.places`) : in a pair without a facet, on
a side of a change, or still in its slot. The stages keep these places up to order
(`places_pairFile`), and so does the pairing of all files together
(`places_semanticChanges`).
-/

namespace CodeMoniker

open List ByteCodec Slots

/-- One of the two versions. -/
inductive DiffSide where
  | base
  | current
  deriving DecidableEq, Repr

namespace DiffSide

def ofPair {α : Type} : DiffSide → α × α → α
  | base, p => p.1
  | current, p => p.2

def ofChange : DiffSide → SymbolChange → Option SymbolSide
  | base, c => c.old
  | current, c => c.new

def ofInputs : DiffSide → PairInputs → FileSide
  | base, p => p.base
  | current, p => p.current

def slots : DiffSide → PairingState → Slots
  | base, s => s.old
  | current, s => s.new

def unpaired : DiffSide → FilePairing → List SideDef
  | base, p => p.unpairedOld
  | current, p => p.unpairedNew

def collapsed : DiffSide → FilePairing → List SideDef
  | base, p => p.collapsedOld
  | current, p => p.collapsedNew

@[simp] theorem ofChange_pairedChange (x : DiffSide) (kind : SemanticKind) (facets : ChangeFacets)
    (old new : SideDef) :
    x.ofChange (pairedChange kind facets old new) = some (x.ofPair (old, new)).side := by
  cases x <;> rfl

end DiffSide

/-! ## Slots -/

@[simp] theorem Slots.defs_nil : defs [] = [] := rfl

@[simp] theorem Slots.defs_none_cons (slots : Slots) : defs (none :: slots) = slots.defs := rfl

@[simp] theorem Slots.defs_some_cons (d : SideDef) (slots : Slots) :
    Slots.defs (some d :: slots) = d :: slots.defs := rfl

@[simp] theorem Slots.defs_map_some (defs : List SideDef) : Slots.defs (defs.map some) = defs := by
  simp [Slots.defs, filterMap_map]

/-- Taking a definition out of its slot leaves the others. -/
theorem Slots.perm_defs_set {slots : Slots} {i : ℕ} {d : SideDef} (h : slots[i]?.join = some d) :
    slots.defs.Perm (d :: defs (slots.set i none)) := Traversals.perm_filterMap_id_set h

/-- The pairs of the exact stage and what it leaves. -/
theorem perm_exactTails (x : DiffSide) : ∀ (byTail : AList fun _ : IdentityTail => ℕ) (new old : Slots),
    let r := exactTails byTail new old
    (x.ofPair (old.defs, new.defs)).Perm
      (r.2.2.map x.ofPair ++ x.ofPair (defs r.1, defs r.2.1))
  | byTail, new, [] => by cases x <;> simp [exactTails, DiffSide.ofPair]
  | byTail, new, none :: old => by
    have ih := perm_exactTails x byTail new old
    cases x <;> simpa [exactTails, DiffSide.ofPair] using ih
  | byTail, new, some d :: old => by
    simp only [exactTails]
    split
    · have ih := perm_exactTails x byTail new old
      cases x
      · exact (ih.cons d).trans perm_middle.symm
      · exact ih
    · next newIdx n htake =>
      have ih := perm_exactTails x (byTail.erase d.tail) (new.set newIdx none) old
      have hn : new[newIdx]?.join = some n := by
        obtain ⟨i, -, hi⟩ := Option.bind_eq_some_iff.mp htake
        obtain ⟨e, he, hpair⟩ := Option.map_eq_some_iff.mp hi
        obtain ⟨rfl, rfl⟩ := Prod.mk.inj hpair
        exact he
      cases x
      · exact ih.cons d
      · exact (perm_defs_set hn).trans (ih.cons n)

/-- A group that is taken moves its two definitions from the slots to the pairs. -/
theorem perm_takeGroup (x : DiffSide) (accept : SideDef → SideDef → Bool) (s : GroupPairing)
    (group : SlotGroup) : let t := takeGroup accept s group
    (s.pairs.map x.ofPair ++ x.ofPair (defs s.old, defs s.new)).Perm
      (t.pairs.map x.ofPair ++ x.ofPair (defs t.old, defs t.new)) := by
  unfold takeGroup
  split
  · next i j =>
    split
    · next old new hold hnew =>
      split_ifs
      · have hslots : (x.ofPair (defs s.old, defs s.new)).Perm
            (x.ofPair (old, new) ::
              x.ofPair (defs (s.old.set i none), defs (s.new.set j none))) := by
          cases x
          · exact perm_defs_set hold
          · exact perm_defs_set hnew
        simpa using hslots.append_left (s.pairs.map x.ofPair)
      · rfl
    · rfl
  · rfl

theorem perm_pairGroups (x : DiffSide) {κ : Type} [DecidableEq κ] (order : HashOrder) (call : ℕ)
    (key : SideDef → Option κ) (accept : SideDef → SideDef → Bool) (old new : Slots) :
    let r := pairGroups order call key accept old new
    (x.ofPair (old.defs, new.defs)).Perm
      (r.pairs.map x.ofPair ++ x.ofPair (defs r.old, defs r.new)) := by
  have hfold : ∀ (groups : List SlotGroup) (s : GroupPairing),
      let t := groups.foldl (takeGroup accept) s
      (s.pairs.map x.ofPair ++ x.ofPair (defs s.old, defs s.new)).Perm
        (t.pairs.map x.ofPair ++ x.ofPair (defs t.old, defs t.new)) := by
    intro groups
    induction groups with
    | nil => intro s; rfl
    | cons group groups ih =>
      intro s
      exact (perm_takeGroup x accept s group).trans (ih (takeGroup accept s group))
  exact hfold _ { old, new }

/-! ## Places -/

/-- Every definition of a side : those in pairs without a facet, those on a change, and those
still in a slot. -/
def PairingState.places (s : PairingState) (x : DiffSide) : List SymbolSide :=
  s.matched.map (fun p => (x.ofPair p).side) ++ s.changes.filterMap x.ofChange ++
    (Slots.defs (x.slots s)).map (·.side)

/-- A change has both sides, unless it is an addition or a removal. -/
def SymbolChange.Paired (c : SymbolChange) : Prop :=
  c.old.isSome ∧ c.new.isSome ∧ c.kind ≠ .added ∧ c.kind ≠ .removed

/-- Pairs have no facet, and the changes so far have two sides. -/
structure PairingState.Sound (s : PairingState) : Prop where
  matched : ∀ p ∈ s.matched, (matchedFacets s.fileMoved p.1 p.2).any = false
  changes : ∀ c ∈ s.changes, c.Paired

theorem classifyMatched_eq_none {fileMoved : Bool} {old new : SideDef} :
    classifyMatched fileMoved old new = none ↔ (matchedFacets fileMoved old new).any = false := by
  unfold classifyMatched
  dsimp only
  split_ifs with h <;> simp [h]

theorem classifyMatched_eq_some {fileMoved : Bool} {old new : SideDef} {c : SymbolChange}
    (h : classifyMatched fileMoved old new = some c) : ∃ kind facets,
      kind ≠ .added ∧ kind ≠ .removed ∧ c = pairedChange kind facets old new := by
  unfold classifyMatched at h
  dsimp only at h
  split_ifs at h <;> exact ⟨_, _, by simp, by simp, (Option.some.inj h).symm⟩

theorem pairedChange_paired {kind : SemanticKind} (facets : ChangeFacets) (old new : SideDef)
    (hadded : kind ≠ .added) (hremoved : kind ≠ .removed) :
    (pairedChange kind facets old new).Paired := ⟨rfl, rfl, hadded, hremoved⟩

/-- A pair of the exact stage is matched or a change. -/
theorem perm_classified (x : DiffSide) (fileMoved : Bool) : ∀ pairs : List (SideDef × SideDef),
    (pairs.map fun p => (x.ofPair p).side).Perm
      ((pairs.filter fun p => classifyMatched fileMoved p.1 p.2 = none).map
          (fun p => (x.ofPair p).side) ++
        (pairs.filterMap fun p => classifyMatched fileMoved p.1 p.2).filterMap x.ofChange)
  | [] => .nil
  | (old, new) :: pairs => by
    have ih := perm_classified x fileMoved pairs
    rcases h : classifyMatched fileMoved old new with _ | c
    · simpa [h] using ih.cons (x.ofPair (old, new)).side
    · obtain ⟨kind, facets, -, -, rfl⟩ := classifyMatched_eq_some h
      have hmid := (ih.cons (x.ofPair (old, new)).side).trans perm_middle.symm
      simpa [h] using hmid

/-! ## Stages -/

namespace PairingState

variable {s : PairingState}

theorem places_pairExactTails (s : PairingState) (x : DiffSide) :
    (pairExactTails s).places x |>.Perm (s.places x) := by
  have hpairs := (perm_exactTails x (slotsByTail s.new) s.new s.old).map (·.side)
  have hclass := perm_classified x s.fileMoved (exactTails (slotsByTail s.new) s.new s.old).2.2
  have hslots : (x.ofPair (s.old.defs, s.new.defs)) = defs (x.slots s) := by cases x <;> rfl
  rw [hslots, map_append, map_map] at hpairs
  replace hpairs := hpairs.trans (hclass.append_right _)
  unfold places
  refine Perm.symm ((hpairs.append_left _).trans ?_)
  cases x <;>
    simp only [pairExactTails, DiffSide.slots, DiffSide.ofPair, map_append,
      filterMap_append, append_assoc] <;>
    refine Perm.append_left _ ?_ <;>
    simp only [← append_assoc] <;>
    refine Perm.append_right _ (Perm.append_right _ ?_) <;>
    exact perm_append_comm

theorem Sound.pairExactTails (h : s.Sound) : (pairExactTails s).Sound where
  matched := by
    intro p hp
    rcases mem_append.mp hp with hp | hp
    · exact h.matched p hp
    · have hnone : classifyMatched s.fileMoved p.1 p.2 = none := by
        simpa using (mem_filter.mp hp).2
      exact classifyMatched_eq_none.mp hnone
  changes := by
    intro c hc
    rcases mem_append.mp hc with hc | hc
    · exact h.changes c hc
    · obtain ⟨p, -, hp⟩ := mem_filterMap.mp hc
      obtain ⟨kind, facets, hadded, hremoved, rfl⟩ := classifyMatched_eq_some hp
      exact pairedChange_paired facets p.1 p.2 hadded hremoved

section PairBy

variable {κ : Type} [DecidableEq κ] {order : HashOrder} {call : ℕ} {key : SideDef → Option κ}
  {accept : SideDef → SideDef → Bool} {change : SideDef → SideDef → SymbolChange}

theorem places_pairBy (s : PairingState) (x : DiffSide)
    (hchange : ∀ old new, x.ofChange (change old new) = some (x.ofPair (old, new)).side) :
    (s.pairBy order call key accept change).1.places x |>.Perm (s.places x) := by
  have hpairs := (perm_pairGroups x order call key accept s.old s.new).map (·.side)
  have hslots : (x.ofPair (s.old.defs, s.new.defs)) = defs (x.slots s) := by cases x <;> rfl
  rw [hslots, map_append, map_map] at hpairs
  unfold places
  refine Perm.symm ((hpairs.append_left _).trans ?_)
  have hsides : ((pairGroups order call key accept s.old s.new).pairs.map fun p =>
      change p.1 p.2).filterMap x.ofChange =
      (pairGroups order call key accept s.old s.new).pairs.map fun p => (x.ofPair p).side := by
    rw [filterMap_map, ← filterMap_eq_map]
    exact filterMap_congr fun p _ => hchange p.1 p.2
  simp only [pairBy, filterMap_append, hsides, append_assoc]
  cases x <;> rfl

theorem Sound.pairBy (h : s.Sound) (hchange : ∀ old new, (change old new).Paired) :
    (s.pairBy order call key accept change).1.Sound where
  matched := h.matched
  changes := by
    intro c hc
    rcases mem_append.mp hc with hc | hc
    · exact h.changes c hc
    · obtain ⟨p, -, rfl⟩ := mem_map.mp hc
      exact hchange p.1 p.2

end PairBy

theorem places_pairSignaturesAndNames (order : HashOrder) (round : ℕ) (s : PairingState)
    (x : DiffSide) : (pairSignaturesAndNames order round s).1.places x |>.Perm (s.places x) := by
  refine (places_pairBy _ x fun old new => ?_).trans (places_pairBy s x fun old new => ?_)
  · exact x.ofChange_pairedChange _ _ old new
  · exact x.ofChange_pairedChange _ _ old new

theorem Sound.pairSignaturesAndNames (order : HashOrder) (round : ℕ) (h : s.Sound) :
    (pairSignaturesAndNames order round s).1.Sound := by
  refine Sound.pairBy (Sound.pairBy h fun old new => ?_) fun old new => ?_
  · exact pairedChange_paired _ old new (by simp) (by simp)
  · exact pairedChange_paired _ old new (by simp) (by simp)

/-- Rewriting touches the tails only. -/
theorem places_rewriteTails (s : PairingState) (renames : RenameMap) (x : DiffSide) :
    ({ s with old := (rewriteTails s.old renames).1 } : PairingState).places x = s.places x := by
  have hsides : ∀ slots : Slots,
      (defs (slots.map (rewriteSlot renames))).map (·.side) = slots.defs.map (·.side) := by
    intro slots
    induction slots with
    | nil => rfl
    | cons slot slots ih =>
      cases slot with
      | none => exact ih
      | some d => exact congrArg (d.side :: ·) ih
  cases x
  · simp only [places, DiffSide.slots, rewriteTails, hsides]
  · rfl

theorem propagateContainerRenames_places (order : HashOrder) (x : DiffSide) :
    ∀ (fuel round : ℕ) (s : PairingState) (renames : RenameMap), s.Sound →
      ((propagateContainerRenames order fuel round s renames).places x).Perm (s.places x) ∧
        (propagateContainerRenames order fuel round s renames).Sound
  | 0, _, s, _, h => ⟨.refl _, h⟩
  | fuel + 1, round, s, renames, h => by
    have hrewrite := places_rewriteTails s renames x
    have hsound : ({ s with old := (rewriteTails s.old renames).1 } : PairingState).Sound :=
      ⟨h.matched, h.changes⟩
    simp only [propagateContainerRenames]
    split_ifs
    · exact ⟨.refl _, h⟩
    · exact ⟨.of_eq hrewrite, hsound⟩
    · have ih := propagateContainerRenames_places order x fuel (round + 1)
        (CodeMoniker.pairSignaturesAndNames order round (CodeMoniker.pairExactTails
          { s with old := (rewriteTails s.old renames).1 })).1
        (CodeMoniker.pairSignaturesAndNames order round (CodeMoniker.pairExactTails
          { s with old := (rewriteTails s.old renames).1 })).2
        (hsound.pairExactTails.pairSignaturesAndNames order round)
      refine ⟨ih.1.trans ?_, ih.2⟩
      rw [← hrewrite]
      exact (places_pairSignaturesAndNames order round _ x).trans (places_pairExactTails _ x)

end PairingState

/-! ## Files -/

/-- The sides of the definitions that have a slot. -/
def FileSide.sides (env : PairingEnv) (file : FileSide) : List SymbolSide :=
  (Slots.defs (collectSideDefs env file)).map (·.side)

/-- The state before the first stage. -/
def startState (env : PairingEnv) (inputs : PairInputs) : PairingState where
  old := collectSideDefs env inputs.base
  new := collectSideDefs env inputs.current
  fileMoved := inputs.fileMoved

/-- The state after the last round. -/
def pairedState (env : PairingEnv) (order : HashOrder) (inputs : PairInputs) : PairingState :=
  let r := pairSignaturesAndNames order 0 (pairExactTails (startState env inputs))
  propagateContainerRenames order r.1.old.length 1 r.1 r.2

variable (env : PairingEnv)

theorem pairFile_eq (order : HashOrder) (inputs : PairInputs) : pairFile env order inputs =
      { changes := (pairedState env order inputs).changes
        unpairedOld := (collapsedRoots (pairedState env order inputs).old).1
        unpairedNew := (collapsedRoots (pairedState env order inputs).new).1
        matched := (pairedState env order inputs).matched
        collapsedOld := (collapsedRoots (pairedState env order inputs).old).2
        collapsedNew := (collapsedRoots (pairedState env order inputs).new).2 } := rfl

theorem unpaired_pairFile (order : HashOrder) (inputs : PairInputs)
    (x : DiffSide) : x.unpaired (pairFile env order inputs) =
      (collapsedRoots (x.slots (pairedState env order inputs))).1 := by
  cases x <;> rfl

theorem collapsed_pairFile (order : HashOrder) (inputs : PairInputs)
    (x : DiffSide) : x.collapsed (pairFile env order inputs) =
      (collapsedRoots (x.slots (pairedState env order inputs))).2 := by
  cases x <;> rfl

theorem startState_sound (inputs : PairInputs) : (startState env inputs).Sound :=
  ⟨fun _ hp => (nomatch hp), fun _ hc => (nomatch hc)⟩

theorem startState_places (inputs : PairInputs) (x : DiffSide) :
    (startState env inputs).places x = (x.ofInputs inputs).sides env := by
  cases x <;> rfl

theorem pairedState_places (order : HashOrder) (inputs : PairInputs) (x : DiffSide) :
    ((pairedState env order inputs).places x).Perm ((x.ofInputs inputs).sides env) := by
  have hsound := (startState_sound env inputs).pairExactTails.pairSignaturesAndNames order 0
  have hloop := (PairingState.propagateContainerRenames_places order x
    (pairSignaturesAndNames order 0 (pairExactTails (startState env inputs))).1.old.length 1 _
    (pairSignaturesAndNames order 0 (pairExactTails (startState env inputs))).2 hsound).1
  rw [← startState_places]
  exact hloop.trans ((PairingState.places_pairSignaturesAndNames order 0 _ x).trans
    (PairingState.places_pairExactTails _ x))

theorem pairedState_sound (order : HashOrder) (inputs : PairInputs) :
    (pairedState env order inputs).Sound :=
  (PairingState.propagateContainerRenames_places order .base _ 1 _ _
    ((startState_sound env inputs).pairExactTails.pairSignaturesAndNames order 0)).2

theorem perm_collapsedRoots (slots : Slots) :
    slots.defs.Perm ((collapsedRoots slots).1 ++ (collapsedRoots slots).2) := by
  simp only [collapsedRoots, partition_eq_filter_filter]
  exact (filter_append_perm _ _).symm

/-- Every definition of a side has left its slot into a pair or a change, or is unpaired : a root,
or below one. -/
theorem places_pairFile (order : HashOrder) (inputs : PairInputs) (x : DiffSide) :
    let p := pairFile env order inputs
    ((x.ofInputs inputs).sides env).Perm
      (p.matched.map (fun m => (x.ofPair m).side) ++ p.changes.filterMap x.ofChange ++
        ((x.unpaired p).map (·.side) ++ (x.collapsed p).map (·.side))) := by
  intro p
  refine (pairedState_places env order inputs x).symm.trans ?_
  rw [unpaired_pairFile, collapsed_pairFile, ← map_append]
  exact ((perm_collapsedRoots _).map _).append_left _

theorem fileMoved_propagateContainerRenames (order : HashOrder) :
    ∀ (fuel round : ℕ) (s : PairingState) (renames : RenameMap),
      (propagateContainerRenames order fuel round s renames).fileMoved = s.fileMoved
  | 0, _, _, _ => rfl
  | fuel + 1, round, s, renames => by
    simp only [propagateContainerRenames]
    split_ifs
    · rfl
    · rfl
    · rw [fileMoved_propagateContainerRenames order fuel (round + 1)]
      rfl

theorem matched_pairFile (order : HashOrder) (inputs : PairInputs)
    {m : SideDef × SideDef} (hm : m ∈ (pairFile env order inputs).matched) :
    (matchedFacets inputs.fileMoved m.1 m.2).any = false := by
  have hmoved : (pairedState env order inputs).fileMoved = inputs.fileMoved :=
    fileMoved_propagateContainerRenames order _ 1 _ _
  rw [← hmoved]
  exact (pairedState_sound env order inputs).matched m hm

/-- A definition that collapses is below a root of its side. -/
theorem collapsed_below (order : HashOrder) (inputs : PairInputs)
    (x : DiffSide) {d : SideDef} (hd : d ∈ x.collapsed (pairFile env order inputs)) :
    ∃ root ∈ x.unpaired (pairFile env order inputs), root.tail ≠ d.tail ∧ root.tail <+: d.tail := by
  rw [collapsed_pairFile] at hd
  rw [unpaired_pairFile]
  generalize x.slots (pairedState env order inputs) = slots at hd ⊢
  simp only [collapsedRoots, partition_eq_filter_filter, mem_filter] at hd ⊢
  -- A tail that extends another one is longer, so going down ends at a root.
  have hroot : ∀ (n : ℕ) (d : SideDef), d.tail.length = n → d ∈ slots.defs →
      isCollapsed (slots.defs.map (·.tail)) d = true →
      ∃ root, (root ∈ slots.defs ∧ (!isCollapsed (slots.defs.map (·.tail)) root) = true) ∧
        root.tail ≠ d.tail ∧ root.tail <+: d.tail := by
    intro n
    induction n using Nat.strong_induction_on with
    | _ n ih =>
      rintro d rfl hmem hcollapsed
      obtain ⟨tail, htail, hext⟩ := any_eq_true.mp hcollapsed
      obtain ⟨e, he, rfl⟩ := mem_map.mp htail
      simp only [ne_eq, Bool.and_eq_true, decide_eq_true_eq, IdentityTail.startsWith_iff] at hext
      obtain ⟨hne, hpre⟩ := hext
      by_cases hce : isCollapsed (slots.defs.map (·.tail)) e = true
      · have hlt : e.tail.length < d.tail.length :=
          lt_of_le_of_ne hpre.length_le fun hlen => hne (hpre.eq_of_length hlen)
        obtain ⟨root, hmemroot, hner, hprer⟩ := ih _ hlt e rfl he hce
        refine ⟨root, hmemroot, fun heq => ?_, hprer.trans hpre⟩
        have hlen := hprer.length_le
        rw [heq] at hlen
        omega
      · exact ⟨e, ⟨he, by simpa using hce⟩, hne, hpre⟩
  exact hroot _ d rfl hd.1 (by simpa using hd.2)

/-! ## Definitions below the root -/

/-- The definitions of a graph are distinct, and those the language shows lie below the root. -/
structure FileSide.BelowRoot (env : PairingEnv) (file : FileSide) : Prop where
  distinct : (file.graph.defs.map (·.moniker)).Nodup
  below : ∀ d ∈ file.navigableDefs env, ∃ root, file.graph.root = some root ∧
    root.isAncestorOf d.moniker = true ∧ d.moniker ≠ root

variable {env : PairingEnv}

/-- Below the root a definition has a slot, with its own moniker and the segments below the
root. -/
theorem FileSide.BelowRoot.sideDef {file : FileSide} (h : file.BelowRoot env)
    (nestedSpans : List Position) (lines : LineIndex) {d : DefRecord}
    (hd : d ∈ file.navigableDefs env) :
    ∃ e, CodeMoniker.sideDef env file nestedSpans lines d = some e ∧ e.side.moniker = d.moniker ∧
      ∃ root, file.graph.root = some root ∧ root.project = d.moniker.project ∧
        d.moniker.segments = root.segments ++ e.tail := by
  obtain ⟨root, hroot, hbelow, hne⟩ := h.below d hd
  obtain ⟨hproject, rest, hrest⟩ := Moniker.segments_prefix_of_isAncestorOf hbelow
  have htail : identityTail d.moniker root = some rest := by
    rw [identityTail, if_pos hbelow, ← hrest, drop_left]
  have hlast : rest ≠ [] := by
    rintro rfl
    exact hne (Moniker.ext_segments hproject.symm (by simpa using hrest.symm))
  unfold CodeMoniker.sideDef
  simp only [hroot, htail, getLast?_eq_getLast_of_ne_nil hlast, Option.bind_eq_bind,
    Option.bind_some, Option.pure_def, Option.some.injEq, exists_eq_left']
  exact ⟨trivial, hproject, hrest.symm⟩

theorem FileSide.BelowRoot.sides_moniker {file : FileSide} (h : file.BelowRoot env) :
    (file.sides env).map (·.moniker) = (file.navigableDefs env).map (·.moniker) := by
  have hmap : ∀ (nestedSpans : List Position) (lines : LineIndex) (defs : List DefRecord),
      (∀ d ∈ defs, d ∈ file.navigableDefs env) →
      (defs.filterMap (CodeMoniker.sideDef env file nestedSpans lines)).map (·.side.moniker) =
        defs.map (·.moniker) := by
    intro nestedSpans lines defs hdefs
    induction defs with
    | nil => rfl
    | cons d defs ih =>
      obtain ⟨e, he, hmoniker, -⟩ := h.sideDef nestedSpans lines (hdefs d (by simp))
      rw [filterMap_cons, he, map_cons, map_cons, hmoniker, ih fun d hd => hdefs d (by simp [hd])]
  rw [FileSide.sides, collectSideDefs, defs_map_some, map_map]
  exact hmap _ _ _ fun _ hd => hd

/-- Two slots do not share a tail. -/
theorem FileSide.BelowRoot.tails_nodup {file : FileSide}
    (h : file.BelowRoot env) : ((defs (collectSideDefs env file)).map (·.tail)).Nodup := by
  have hmonikers : ((defs (collectSideDefs env file)).map (·.side.moniker)).Nodup := by
    have hsides := h.sides_moniker
    rw [FileSide.sides, map_map] at hsides
    have hnav := h.distinct.sublist ((filter_sublist (p := env.isNavigableDef file.lang)).map _)
    exact hsides ▸ hnav
  refine pairwise_map.mpr (List.Pairwise.imp_of_mem ?_ (pairwise_map.mp hmonikers))
  intro a b ha hb hne htail
  refine hne ?_
  rw [collectSideDefs, defs_map_some] at ha hb
  obtain ⟨da, hda, hsa⟩ := mem_filterMap.mp ha
  obtain ⟨db, hdb, hsb⟩ := mem_filterMap.mp hb
  obtain ⟨a', ha', hma, root, hroot, hpa, hsega⟩ := h.sideDef _ _ hda
  obtain ⟨b', hb', hmb, root', hroot', hpb, hsegb⟩ := h.sideDef _ _ hdb
  obtain rfl := Option.some.inj (ha'.symm.trans hsa)
  obtain rfl := Option.some.inj (hb'.symm.trans hsb)
  obtain rfl := Option.some.inj (hroot.symm.trans hroot')
  rw [hma, hmb]
  exact Moniker.ext_segments (hpa.symm.trans hpb) (by rw [hsega, hsegb, htail])

/-! ## All files -/

/-- What `finishFiles` sorts. -/
def unsortedChanges (order : HashOrder) (pairings : List FilePairing) : List SymbolChange :=
  let r := pairGroups order 0 containerMoveKey (fun _ _ => true)
    ((pairings.flatMap (·.unpairedOld)).map some) ((pairings.flatMap (·.unpairedNew)).map some)
  pairings.flatMap (·.changes) ++ r.pairs.map (fun p => containerMove p.1 p.2) ++
    r.old.defs.map (unpairedChange .removed) ++ r.new.defs.map (unpairedChange .added)

theorem perm_finishFiles (order : HashOrder) (pairings : List FilePairing) :
    (finishFiles order pairings).Perm (unsortedChanges order pairings) :=
  perm_insertionSort _ _

/-- The two sides of a change fit its kind. -/
def SymbolChange.WellSided (c : SymbolChange) : Prop :=
  match c.kind with
  | .added => c.old = none ∧ c.new.isSome
  | .removed => c.old.isSome ∧ c.new = none
  | _ => c.old.isSome ∧ c.new.isSome

theorem SymbolChange.Paired.wellSided {c : SymbolChange} (h : c.Paired) : c.WellSided := by
  obtain ⟨hold, hnew, hadded, hremoved⟩ := h
  unfold WellSided
  split
  · next hk => exact absurd hk hadded
  · next hk => exact absurd hk hremoved
  · exact ⟨hold, hnew⟩

theorem wellSided_unsortedChanges {order : HashOrder} {pairings : List FilePairing}
    (h : ∀ p ∈ pairings, ∀ c ∈ p.changes, c.Paired) :
    ∀ c ∈ unsortedChanges order pairings, c.WellSided := by
  intro c hc
  simp only [unsortedChanges, mem_append, mem_flatMap, mem_map] at hc
  rcases hc with ((⟨p, hp, hc⟩ | ⟨m, -, rfl⟩) | ⟨d, -, rfl⟩) | ⟨d, -, rfl⟩
  · exact (h p hp c hc).wellSided
  · exact (pairedChange_paired _ m.1 m.2 (by simp) (by simp)).wellSided
  · exact ⟨rfl, rfl⟩
  · exact ⟨rfl, rfl⟩

/-- The unpaired definitions of all files go to moves, removals and additions. -/
theorem sides_unsortedChanges (order : HashOrder) (pairings : List FilePairing) (x : DiffSide) :
    ((unsortedChanges order pairings).filterMap x.ofChange).Perm
      ((pairings.flatMap (·.changes)).filterMap x.ofChange ++
        (pairings.flatMap x.unpaired).map (·.side)) := by
  have hpool := perm_pairGroups x order 0 containerMoveKey (fun _ _ => true)
    ((pairings.flatMap (·.unpairedOld)).map some) ((pairings.flatMap (·.unpairedNew)).map some)
  simp only [defs_map_some] at hpool
  unfold unsortedChanges
  generalize pairGroups order 0 containerMoveKey (fun _ _ => true)
    ((pairings.flatMap (·.unpairedOld)).map some)
    ((pairings.flatMap (·.unpairedNew)).map some) = r at hpool ⊢
  have hmoves : (r.pairs.map fun p => containerMove p.1 p.2).filterMap x.ofChange =
      r.pairs.map fun p => (x.ofPair p).side := by
    rw [filterMap_map, ← filterMap_eq_map]
    exact filterMap_congr fun p _ => x.ofChange_pairedChange _ _ p.1 p.2
  have hremoved : ∀ defs : List SideDef, (defs.map (unpairedChange .removed)).filterMap x.ofChange =
      if x = .base then defs.map (·.side) else [] := by
    intro defs
    induction defs with
    | nil => cases x <;> rfl
    | cons d defs ih => cases x <;> simp_all [unpairedChange, DiffSide.ofChange]
  have hadded : ∀ defs : List SideDef, (defs.map (unpairedChange .added)).filterMap x.ofChange =
      if x = .base then [] else defs.map (·.side) := by
    intro defs
    induction defs with
    | nil => cases x <;> rfl
    | cons d defs ih => cases x <;> simp_all [unpairedChange, DiffSide.ofChange]
  have hsides := (hpool.map (·.side)).symm
  rw [map_append, map_map] at hsides
  simp only [filterMap_append, hmoves, hremoved, hadded, append_assoc]
  refine Perm.append_left _ ?_
  cases x
  · rw [if_pos rfl, if_pos rfl, append_nil]
    exact hsides
  · exact hsides

/-- The pairings of a run. -/
def filePairings (env : PairingEnv) (order : RunOrder) (files : List PairInputs) :
    List FilePairing :=
  files.mapIdx fun i inputs => pairFile env (order.file i) inputs

theorem mem_filePairings {order : RunOrder} {files : List PairInputs}
    {p : FilePairing} (hp : p ∈ filePairings env order files) :
    ∃ i inputs, files[i]? = some inputs ∧ p = pairFile env (order.file i) inputs := by
  obtain ⟨i, hi⟩ := mem_iff_getElem?.mp hp
  rw [filePairings, getElem?_mapIdx] at hi
  obtain ⟨inputs, hinputs, rfl⟩ := Option.map_eq_some_iff.mp hi
  exact ⟨i, inputs, hinputs, rfl⟩

theorem places_filePairings (env : PairingEnv) (x : DiffSide) :
    ∀ (files : List PairInputs) (order : RunOrder),
      (files.flatMap fun inputs => (x.ofInputs inputs).sides env).Perm
        ((filePairings env order files).flatMap fun p =>
          p.matched.map (fun m => (x.ofPair m).side) ++ p.changes.filterMap x.ofChange ++
            ((x.unpaired p).map (·.side) ++ (x.collapsed p).map (·.side)))
  | [], _ => .nil
  | inputs :: files, order => by
    have ih := places_filePairings env x files ⟨fun i => order.file (i + 1), order.files⟩
    simp only [filePairings, mapIdx_cons, flatMap_cons] at ih ⊢
    exact (places_pairFile env (order.file 0) inputs x).append ih

/-- The definitions of a side, over all files : each is on exactly one change, or in a pair
without a facet, or collapsed. -/
theorem places_semanticChanges (order : RunOrder) (files : List PairInputs) (x : DiffSide) :
    (files.flatMap fun inputs => (x.ofInputs inputs).sides env).Perm
      ((semanticChanges env order files).filterMap x.ofChange ++
        (filePairings env order files).flatMap fun p =>
          p.matched.map (fun m => (x.ofPair m).side) ++ (x.collapsed p).map (·.side)) := by
  have hchanges := ((perm_finishFiles order.files (filePairings env order files)).filterMap
    x.ofChange).trans (sides_unsortedChanges order.files (filePairings env order files) x)
  refine (places_filePairings env x files order).trans (Perm.trans ?_
    (hchanges.symm.append_right _))
  rw [filterMap_flatMap, map_flatMap]
  refine Perm.trans ?_ ((flatMap_append_perm _ _ _).append_right _).symm
  refine Perm.trans ?_ (flatMap_append_perm _ _ _).symm
  refine Perm.flatMap_left _ fun p _ => ?_
  generalize p.matched.map (fun m => (x.ofPair m).side) = a
  generalize (x.collapsed p).map (·.side) = d
  rw [append_assoc]
  refine (perm_append_comm_assoc _ _ _).trans ?_
  rw [append_assoc]
  exact (perm_append_comm_assoc _ _ _).append_left _

end CodeMoniker
