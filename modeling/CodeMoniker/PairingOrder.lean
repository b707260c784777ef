import CodeMoniker.PairingPlaces

/-!
# The order of the hash maps

A stage takes groups that share no slot, so taking them in another order takes the same pairs
(`pairGroups_same`). The rounds rewrite tails by the first rename that matches. Two renames of one
round can match one tail, and then the order decides. When they agree on every tail they match
(`RoundUnambiguous`), the result of a run is the same up to order for every order of the hash maps
(`semanticChanges_perm`).
-/

namespace CodeMoniker

open List ByteCodec

/-! ## Folding over a permutation -/

/-- A fold whose steps commute up to `R` gives related results on a permutation. -/
theorem foldl_rel_of_perm {α β : Type} {R : β → β → Prop} {f : β → α → β}
    (hrefl : ∀ a, R a a) (htrans : ∀ {a b c}, R a b → R b c → R a c)
    (hstep : ∀ {a b} (x : α), R a b → R (f a x) (f b x)) {l m : List α} (hperm : l.Perm m)
    (hcomm : ∀ x ∈ l, ∀ y ∈ l, ∀ a, R (f (f a x) y) (f (f a y) x)) {a b : β} (hab : R a b) :
    R (l.foldl f a) (m.foldl f b) := by
  have hfold : ∀ (l : List α) {a b : β}, R a b → R (l.foldl f a) (l.foldl f b) := by
    intro l
    induction l with
    | nil => exact id
    | cons x l ih => exact fun hab => ih (hstep x hab)
  induction hperm generalizing a b with
  | nil => exact hab
  | cons x _ ih =>
    exact ih (fun y hy z hz => hcomm y (.tail x hy) z (.tail x hz)) (hstep x hab)
  | swap x y l =>
    refine hfold l (htrans (hcomm y (by simp) x (by simp) a) ?_)
    exact hstep y (hstep x hab)
  | trans hlm _ ihl ihm =>
    refine htrans (ihl hcomm (hrefl a)) (ihm ?_ hab)
    exact fun x hx y hy => hcomm x (hlm.mem_iff.mpr hx) y (hlm.mem_iff.mpr hy)

/-! ## Groups -/

/-- The same slots, and the same pairs up to order. -/
structure GroupPairing.Same (s t : GroupPairing) : Prop where
  old : s.old = t.old
  new : s.new = t.new
  pairs : s.pairs.Perm t.pairs

theorem GroupPairing.Same.refl (s : GroupPairing) : s.Same s := ⟨rfl, rfl, .refl _⟩

theorem GroupPairing.Same.trans {s t u : GroupPairing} (h : s.Same t) (h' : t.Same u) :
    s.Same u := ⟨h.old.trans h'.old, h.new.trans h'.new, h.pairs.trans h'.pairs⟩

section TakeGroup

variable {accept : SideDef → SideDef → Bool}

/-- What is taken from two slots. -/
def takenPair (accept : SideDef → SideDef → Bool) (s : GroupPairing) (i j : ℕ) :
    Option (SideDef × SideDef) :=
  (s.old[i]?.join.bind fun old => s.new[j]?.join.map fun new => (old, new)).filter fun p =>
    accept p.1 p.2

theorem takeGroup_pair (s : GroupPairing) (i j : ℕ) : takeGroup accept s ([i], [j]) =
      match takenPair accept s i j with
      | some p => ⟨s.old.set i none, s.new.set j none, s.pairs ++ [p]⟩
      | none => s := by
  unfold takeGroup takenPair
  dsimp only
  generalize s.old[i]?.join = old
  generalize s.new[j]?.join = new
  cases old with
  | none => rfl
  | some old =>
    cases new with
    | none => rfl
    | some new => by_cases h : accept old new = true <;> simp [h, Option.filter]

/-- Only a group of one slot on each side is taken. -/
theorem takeGroup_cases (accept : SideDef → SideDef → Bool) (group : SlotGroup) :
    (∃ i j, group = ([i], [j])) ∨ ∀ s, takeGroup accept s group = s := by
  obtain ⟨olds, news⟩ := group
  rcases olds with _ | ⟨i, _ | ⟨i', olds⟩⟩
  · exact .inr fun s => rfl
  · rcases news with _ | ⟨j, _ | ⟨j', news⟩⟩
    · exact .inr fun s => rfl
    · exact .inl ⟨i, j, rfl⟩
    · exact .inr fun s => rfl
  · exact .inr fun s => rfl

theorem GroupPairing.Same.takeGroup {s t : GroupPairing} (group : SlotGroup) (h : s.Same t) :
    (takeGroup accept s group).Same (CodeMoniker.takeGroup accept t group) := by
  rcases takeGroup_cases accept group with ⟨i, j, rfl⟩ | hskip
  · rw [takeGroup_pair, takeGroup_pair]
    have htaken : takenPair accept s i j = takenPair accept t i j := by
      rw [takenPair, takenPair, h.old, h.new]
    rw [htaken]
    split
    · next p _ =>
      exact ⟨congrArg (·.set i none) h.old, congrArg (·.set j none) h.new, h.pairs.append_right _⟩
    · exact h
  · rw [hskip, hskip]
    exact h

/-- Groups without a common slot. -/
structure SlotGroup.Apart (x y : SlotGroup) : Prop where
  old : x.1.Disjoint y.1
  new : x.2.Disjoint y.2

theorem takenPair_takeGroup {s : GroupPairing} {i j k l : ℕ} (hik : i ≠ k) (hjl : j ≠ l) :
    takenPair accept (takeGroup accept s ([k], [l])) i j = takenPair accept s i j := by
  rw [takeGroup_pair]
  split
  · simp only [takenPair, getElem?_set_ne hik.symm, getElem?_set_ne hjl.symm]
  · rfl

theorem takeGroup_comm {x y : SlotGroup} (h : x = y ∨ SlotGroup.Apart x y) (s : GroupPairing) :
    (takeGroup accept (takeGroup accept s x) y).Same (takeGroup accept (takeGroup accept s y) x) := by
  rcases h with rfl | ⟨hold, hnew⟩
  · exact .refl _
  rcases takeGroup_cases accept x with ⟨i, j, rfl⟩ | hskip
  · rcases takeGroup_cases accept y with ⟨k, l, rfl⟩ | hskip
    · have hik : i ≠ k := by simpa [eq_comm] using hold
      have hjl : j ≠ l := by simpa [eq_comm] using hnew
      rw [takeGroup_pair (takeGroup accept s ([i], [j])) k l,
        takeGroup_pair (takeGroup accept s ([k], [l])) i j, takenPair_takeGroup hik hjl,
        takenPair_takeGroup hik.symm hjl.symm, takeGroup_pair s i j, takeGroup_pair s k l]
      rcases takenPair accept s i j with _ | p <;> rcases takenPair accept s k l with _ | q
      · exact .refl _
      · exact .refl _
      · exact .refl _
      · refine ⟨set_comm _ _ hik, set_comm _ _ hjl, ?_⟩
        simp only [append_assoc, cons_append, nil_append]
        exact (Perm.swap q p []).append_left _
    · rw [hskip, hskip]
      exact .refl _
  · rw [hskip, hskip]
    exact .refl _

end TakeGroup

section Groups

variable {κ : Type} [DecidableEq κ] {key : SideDef → Option κ}

theorem mem_slotsWith {k : κ} {slots : Slots} {i : ℕ} :
    i ∈ slotsWith key k slots ↔ slots[i]?.join.bind key = some k := by
  simp only [slotsWith, mem_map, mem_filter, decide_eq_true_eq, Prod.exists,
    mem_zipIdx_iff_getElem?]
  constructor
  · rintro ⟨slot, _, ⟨hslot, hkey⟩, rfl⟩
    simpa [hslot] using hkey
  · intro h
    obtain ⟨d, hd, hkey⟩ := Option.bind_eq_some_iff.mp h
    have hslot : slots[i]? = some (some d) := Option.join_eq_some_iff.mp hd
    exact ⟨some d, i, ⟨hslot, hkey⟩, rfl⟩

theorem slotGroups_apart {old new : Slots} {x y : SlotGroup} (hx : x ∈ slotGroups key old new)
    (hy : y ∈ slotGroups key old new) : x = y ∨ SlotGroup.Apart x y := by
  obtain ⟨k, -, rfl⟩ := mem_map.mp hx
  obtain ⟨k', -, rfl⟩ := mem_map.mp hy
  by_cases hk : k = k'
  · exact .inl (by rw [hk])
  · have hdisjoint : ∀ slots : Slots, (slotsWith key k slots).Disjoint (slotsWith key k' slots) := by
      intro slots i hi hi'
      exact hk (Option.some.inj ((mem_slotsWith.mp hi).symm.trans (mem_slotsWith.mp hi')))
    exact .inr ⟨hdisjoint old, hdisjoint new⟩

/-- The loop over the groups takes the same pairs in every order. -/
theorem pairGroups_same (order order' : HashOrder) (call call' : ℕ) (key : SideDef → Option κ)
    (accept : SideDef → SideDef → Bool) (old new : Slots) :
    (pairGroups order call key accept old new).Same (pairGroups order' call' key accept old new) := by
  have hperm := (order.perm call (slotGroups key old new)).trans
    (order'.perm call' (slotGroups key old new)).symm
  refine foldl_rel_of_perm .refl .trans (fun x h => h.takeGroup x) hperm ?_ (.refl _)
  intro x hx y hy s
  have hmem := (order.perm call (slotGroups key old new)).mem_iff (a := x)
  exact takeGroup_comm (slotGroups_apart (hmem.mp hx)
    ((order.perm call (slotGroups key old new)).mem_iff.mp hy)) s

end Groups

/-! ## Stages -/

/-- The same slots, and the same changes and pairs up to order. -/
structure PairingState.Same (s t : PairingState) : Prop where
  old : s.old = t.old
  new : s.new = t.new
  fileMoved : s.fileMoved = t.fileMoved
  changes : s.changes.Perm t.changes
  matched : s.matched.Perm t.matched

namespace PairingState

variable {s t : PairingState}

theorem Same.refl (s : PairingState) : s.Same s := ⟨rfl, rfl, rfl, .refl _, .refl _⟩

theorem Same.pairExactTails (h : s.Same t) :
    (pairExactTails s).Same (CodeMoniker.pairExactTails t) := by
  unfold CodeMoniker.pairExactTails
  rw [h.old, h.new, h.fileMoved]
  exact ⟨rfl, rfl, rfl, h.changes.append_right _, h.matched.append_right _⟩

theorem Same.pairBy {κ : Type} [DecidableEq κ] (order order' : HashOrder) (call call' : ℕ)
    (key : SideDef → Option κ) (accept : SideDef → SideDef → Bool)
    (change : SideDef → SideDef → SymbolChange) (h : s.Same t) :
    (s.pairBy order call key accept change).1.Same (t.pairBy order' call' key accept change).1 ∧
      (s.pairBy order call key accept change).2.Perm (t.pairBy order' call' key accept change).2 := by
  have hgroups := pairGroups_same order order' call call' key accept s.old s.new
  unfold PairingState.pairBy
  rw [← h.old, ← h.new]
  exact ⟨⟨hgroups.old, hgroups.new, h.fileMoved, h.changes.append (hgroups.pairs.map _),
    h.matched⟩, hgroups.pairs.map _⟩

theorem Same.pairSignaturesAndNames (order order' : HashOrder) (round round' : ℕ) (h : s.Same t) :
    (pairSignaturesAndNames order round s).1.Same
        (CodeMoniker.pairSignaturesAndNames order' round' t).1 ∧
      (CodeMoniker.pairSignaturesAndNames order round s).2.Perm
        (CodeMoniker.pairSignaturesAndNames order' round' t).2 := by
  have hsignatures := h.pairBy order order' (2 * round) (2 * round') signatureKey
    (fun _ _ => true) (signatureChange s.fileMoved)
  have hnames := hsignatures.1.pairBy order order' (2 * round + 1) (2 * round' + 1) renameKey
    (fun old new => old.baseName ≠ new.baseName) (renameChange s.fileMoved)
  have hmoved := h.fileMoved
  simp only [CodeMoniker.pairSignaturesAndNames, pairSignatureChanges, pairRenames,
    PairingState.pairBy] at hsignatures hnames ⊢
  rw [hmoved] at hsignatures hnames ⊢
  exact ⟨hnames.1, hsignatures.2.append hnames.2⟩

end PairingState

/-! ## Rounds -/

/-- Renames that match one tail rewrite it to the same tail. -/
def RoundUnambiguous (renames : RenameMap) (slots : Slots) : Prop :=
  ∀ d ∈ slots.defs, ∀ r ∈ renames, ∀ r' ∈ renames, (d.tail.rewritePrefix r.1 r.2).isSome →
    (d.tail.rewritePrefix r'.1 r'.2).isSome →
      d.tail.rewritePrefix r.1 r.2 = d.tail.rewritePrefix r'.1 r'.2

instance (renames : RenameMap) (slots : Slots) : Decidable (RoundUnambiguous renames slots) := by
  unfold RoundUnambiguous
  infer_instance

/-- The rounds that the loop makes are unambiguous. -/
def RoundsUnambiguous (order : HashOrder) : ℕ → ℕ → PairingState → RenameMap → Prop
  | 0, _, _, _ => True
  | fuel + 1, round, s, renames =>
    renames ≠ [] → RoundUnambiguous renames s.old ∧
      ((rewriteTails s.old renames).2 = true →
        let next := pairSignaturesAndNames order round
          (pairExactTails { s with old := (rewriteTails s.old renames).1 })
        RoundsUnambiguous order fuel (round + 1) next.1 next.2)

instance decidableRoundsUnambiguous (order : HashOrder) : ∀ (fuel round : ℕ) (s : PairingState)
    (renames : RenameMap), Decidable (RoundsUnambiguous order fuel round s renames)
  | 0, _, _, _ => inferInstanceAs (Decidable True)
  | fuel + 1, round, s, renames =>
    have := decidableRoundsUnambiguous order fuel
    inferInstanceAs (Decidable (renames ≠ [] → RoundUnambiguous renames s.old ∧
      ((rewriteTails s.old renames).2 = true →
        let next := pairSignaturesAndNames order round
          (pairExactTails { s with old := (rewriteTails s.old renames).1 })
        RoundsUnambiguous order fuel (round + 1) next.1 next.2)))

/-- The first hit is the same on a permutation, if all hits agree. -/
theorem findSome?_perm {α β : Type} {f : α → Option β} {l m : List α} (hperm : l.Perm m)
    (hagree : ∀ x ∈ l, ∀ y ∈ l, (f x).isSome → (f y).isSome → f x = f y) :
    l.findSome? f = m.findSome? f := by
  rcases hl : l.findSome? f with _ | a
  · rw [findSome?_eq_none_iff] at hl
    symm
    rw [findSome?_eq_none_iff]
    exact fun x hx => hl x (hperm.mem_iff.mpr hx)
  · obtain ⟨x, hx, hfx⟩ := exists_of_findSome?_eq_some hl
    rcases hm : m.findSome? f with _ | b
    · rw [findSome?_eq_none_iff] at hm
      rw [hm x (hperm.mem_iff.mp hx)] at hfx
      exact hfx.symm
    · obtain ⟨y, hy, hfy⟩ := exists_of_findSome?_eq_some hm
      rw [← hfx, ← hfy]
      exact hagree x hx y (hperm.mem_iff.mpr hy) (by simp [hfx]) (by simp [hfy])

theorem rewriteTails_perm {renames renames' : RenameMap} {slots : Slots}
    (hperm : renames.Perm renames') (h : RoundUnambiguous renames slots) :
    rewriteTails slots renames = rewriteTails slots renames' := by
  have htail : ∀ d ∈ slots.defs, rewriteTail renames d.tail = rewriteTail renames' d.tail :=
    fun d hd => findSome?_perm hperm (h d hd)
  have hmem : ∀ d, some d ∈ slots → d ∈ slots.defs := fun d hd =>
    mem_filterMap.mpr ⟨some d, hd, rfl⟩
  unfold rewriteTails
  refine Prod.ext (map_congr_left fun slot hslot => ?_) ?_
  · cases slot with
    | none => rfl
    | some d => simp only [rewriteSlot, Option.map_some, htail d (hmem d hslot)]
  · rw [Bool.eq_iff_iff, any_eq_true, any_eq_true]
    refine exists_congr fun slot => and_congr_right fun hslot => ?_
    cases slot with
    | none => rfl
    | some d => simp only [Option.any_some, htail d (hmem d hslot)]

/-- Unambiguous rounds come to the same state for every order. -/
theorem propagateContainerRenames_same (order order' : HashOrder) :
    ∀ (fuel round : ℕ) {s t : PairingState} {renames renames' : RenameMap}, s.Same t →
      renames.Perm renames' → RoundsUnambiguous order fuel round s renames →
      (propagateContainerRenames order fuel round s renames).Same
        (propagateContainerRenames order' fuel round t renames')
  | 0, _, _, _, _, _, h, _, _ => h
  | fuel + 1, round, s, t, renames, renames', h, hperm, hrun => by
    by_cases hnil : renames = []
    · subst hnil
      obtain rfl := hperm.nil_eq
      exact h
    have hnil' : renames' ≠ [] := fun h' => hnil (h' ▸ hperm).eq_nil
    obtain ⟨hround, hnext⟩ := hrun hnil
    have hrewrite := rewriteTails_perm hperm hround
    have hold : ({ s with old := (rewriteTails s.old renames).1 } : PairingState).Same
        { t with old := (rewriteTails s.old renames).1 } :=
      ⟨rfl, h.new, h.fileMoved, h.changes, h.matched⟩
    simp only [propagateContainerRenames, if_neg hnil, if_neg hnil', ← h.old, ← hrewrite]
    split_ifs with hrewrote
    · exact hold
    · have hstages := (hold.pairExactTails).pairSignaturesAndNames order order' round round
      exact propagateContainerRenames_same order order' fuel (round + 1) hstages.1 hstages.2
        (hnext (by simpa using hrewrote))

/-! ## The fuel of the rounds -/

theorem length_exactTails : ∀ (byTail : AList fun _ : IdentityTail => ℕ) (new old : Slots),
    (exactTails byTail new old).1.length = old.length
  | _, _, [] => rfl
  | byTail, new, none :: old => by
    simp only [exactTails, length_cons, length_exactTails byTail new old]
  | byTail, new, some d :: old => by
    simp only [exactTails]
    split <;> simp only [length_cons, length_exactTails]

theorem length_pairGroups {κ : Type} [DecidableEq κ] (order : HashOrder) (call : ℕ)
    (key : SideDef → Option κ) (accept : SideDef → SideDef → Bool) (old new : Slots) :
    (pairGroups order call key accept old new).old.length = old.length := by
  have hfold : ∀ (groups : List SlotGroup) (s : GroupPairing),
      (groups.foldl (takeGroup accept) s).old.length = s.old.length := by
    intro groups
    induction groups with
    | nil => exact fun s => rfl
    | cons group groups ih =>
      intro s
      rw [foldl_cons, ih]
      rcases takeGroup_cases accept group with ⟨i, j, rfl⟩ | hskip
      · rw [takeGroup_pair]
        split
        · exact length_set
        · rfl
      · rw [hskip]
  exact hfold _ { old, new }

/-- Every rename has taken an old definition. -/
theorem length_pairBy {κ : Type} [DecidableEq κ] (order : HashOrder) (call : ℕ)
    (key : SideDef → Option κ) (accept : SideDef → SideDef → Bool)
    (change : SideDef → SideDef → SymbolChange) (s : PairingState) :
    (s.pairBy order call key accept change).2.length +
        (Slots.defs (s.pairBy order call key accept change).1.old).length = s.old.defs.length := by
  have hperm := (perm_pairGroups .base order call key accept s.old s.new).length_eq
  simp only [DiffSide.ofPair, length_append, length_map] at hperm
  simp only [PairingState.pairBy, length_map]
  exact hperm.symm

theorem length_pairSignaturesAndNames (order : HashOrder) (round : ℕ) (s : PairingState) :
    (pairSignaturesAndNames order round s).2.length +
        (Slots.defs (pairSignaturesAndNames order round s).1.old).length = s.old.defs.length ∧
      (pairSignaturesAndNames order round s).1.old.length = s.old.length := by
  have hsignatures := length_pairBy order (2 * round) signatureKey (fun _ _ => true)
    (signatureChange s.fileMoved) s
  have hnames := length_pairBy order (2 * round + 1) renameKey
    (fun old new => old.baseName ≠ new.baseName) (renameChange s.fileMoved)
    (pairSignatureChanges order (2 * round) s).1
  constructor
  · have hsplit : (pairSignaturesAndNames order round s).2.length =
        (pairSignatureChanges order (2 * round) s).2.length +
          (pairRenames order (2 * round + 1) (pairSignatureChanges order (2 * round) s).1).2.length :=
      length_append
    rw [hsplit, Nat.add_assoc]
    exact (congrArg (_ + ·) hnames).trans hsignatures
  · exact (length_pairGroups _ _ _ _ _ _).trans (length_pairGroups _ _ _ _ _ _)

theorem length_defs_pairExactTails (s : PairingState) :
    (Slots.defs (pairExactTails s).old).length ≤ s.old.defs.length := by
  have hperm := (perm_exactTails .base (slotsByTail s.new) s.new s.old).length_eq
  simp only [DiffSide.ofPair, length_append, length_map] at hperm
  exact hperm ▸ Nat.le_add_left _ _

theorem length_defs_rewriteTails (slots : Slots) (renames : RenameMap) :
    (Slots.defs (rewriteTails slots renames).1).length = slots.defs.length := by
  unfold rewriteTails
  induction slots with
  | nil => rfl
  | cons slot slots ih =>
    cases slot with
    | none => exact ih
    | some d => exact congrArg (· + 1) ih

/-- The stages of a round, on the rewritten tails. -/
def roundStages (order : HashOrder) (round : ℕ) (s : PairingState) (renames : RenameMap) :
    PairingState × RenameMap :=
  pairSignaturesAndNames order round
    (pairExactTails { s with old := (rewriteTails s.old renames).1 })

theorem length_roundStages (order : HashOrder) (round : ℕ) (s : PairingState)
    (renames : RenameMap) : (roundStages order round s renames).2.length +
      (Slots.defs (roundStages order round s renames).1.old).length ≤ s.old.defs.length := by
  have hstage := (length_pairSignaturesAndNames order round (pairExactTails
    { s with old := (rewriteTails s.old renames).1 })).1
  have hexact := length_defs_pairExactTails { s with old := (rewriteTails s.old renames).1 }
  have hrewrite := length_defs_rewriteTails s.old renames
  simp only at hexact
  unfold roundStages
  omega

/-- With more fuel than old definitions the loop ends by itself. -/
theorem propagateContainerRenames_fuel (order : HashOrder) (extra : ℕ) :
    ∀ (fuel round : ℕ) (s : PairingState) (renames : RenameMap),
      (renames ≠ [] → s.old.defs.length < fuel) →
      propagateContainerRenames order (fuel + extra) round s renames =
        propagateContainerRenames order fuel round s renames
  | 0, round, s, renames, h => by
    have hnil : renames = [] := by
      by_contra hne
      exact absurd (h hne) (Nat.not_lt_zero _)
    subst hnil
    cases extra <;> simp [propagateContainerRenames]
  | fuel + 1, round, s, renames, h => by
    rw [Nat.add_right_comm]
    simp only [propagateContainerRenames]
    split_ifs with hnil
    · rfl
    · rfl
    · refine propagateContainerRenames_fuel order extra fuel (round + 1) _ _ fun hnext => ?_
      have hlen := h hnil
      have hstage := length_roundStages order round s renames
      have hpos := length_pos_iff.mpr hnext
      simp only [roundStages] at hstage
      omega

/-- The rounds of a file are those of the unbounded loop. -/
theorem pairedState_fuel (env : PairingEnv) (order : HashOrder) (inputs : PairInputs) (extra : ℕ) :
    let r := pairSignaturesAndNames order 0 (pairExactTails (startState env inputs))
    propagateContainerRenames order (r.1.old.length + extra) 1 r.1 r.2 =
      pairedState env order inputs := by
  dsimp only
  refine propagateContainerRenames_fuel order extra _ 1 _ _ fun hne => ?_
  obtain ⟨hdefs, hslots⟩ :=
    length_pairSignaturesAndNames order 0 (pairExactTails (startState env inputs))
  have hexact := length_defs_pairExactTails (startState env inputs)
  have hstart : (startState env inputs).old.defs.length = (startState env inputs).old.length := by
    simp [startState, collectSideDefs]
  have hlen : (pairExactTails (startState env inputs)).old.length =
      (startState env inputs).old.length := length_exactTails _ _ _
  have hpos := length_pos_iff.mpr hne
  omega

/-! ## Files -/

/-- The rounds of a file are unambiguous. -/
structure FileUnambiguous (env : PairingEnv) (order : HashOrder) (inputs : PairInputs) : Prop where
  rounds :
    let r := pairSignaturesAndNames order 0 (pairExactTails (startState env inputs))
    RoundsUnambiguous order r.1.old.length 1 r.1 r.2

instance (env : PairingEnv) (order : HashOrder) (inputs : PairInputs) :
    Decidable (FileUnambiguous env order inputs) :=
  let r := pairSignaturesAndNames order 0 (pairExactTails (startState env inputs))
  have := decidableRoundsUnambiguous order r.1.old.length 1 r.1 r.2
  decidable_of_iff (RoundsUnambiguous order r.1.old.length 1 r.1 r.2)
    ⟨fun h => ⟨h⟩, fun h => h.rounds⟩

variable {env : PairingEnv}

theorem pairedState_same {order : HashOrder} {inputs : PairInputs}
    (h : FileUnambiguous env order inputs) (order' : HashOrder) :
    (pairedState env order inputs).Same (pairedState env order' inputs) := by
  have hstage := (PairingState.Same.refl (pairExactTails (startState env inputs))
    ).pairSignaturesAndNames order order' 0 0
  have hrun := propagateContainerRenames_same order order' _ 1 hstage.1 hstage.2 h.rounds
  rw [hstage.1.old] at hrun
  unfold pairedState
  dsimp only
  rw [hstage.1.old]
  exact hrun

/-- Pairings with the same roots, and the same changes up to order. -/
structure FilePairing.Same (p q : FilePairing) : Prop where
  unpairedOld : p.unpairedOld = q.unpairedOld
  unpairedNew : p.unpairedNew = q.unpairedNew
  changes : p.changes.Perm q.changes

theorem pairFile_same {order : HashOrder} {inputs : PairInputs}
    (h : FileUnambiguous env order inputs) (order' : HashOrder) :
    (pairFile env order inputs).Same (pairFile env order' inputs) := by
  have hstate := pairedState_same h order'
  rw [pairFile_eq, pairFile_eq]
  exact ⟨congrArg (fun slots => (collapsedRoots slots).1) hstate.old,
    congrArg (fun slots => (collapsedRoots slots).1) hstate.new, hstate.changes⟩

theorem finishFiles_same (order order' : HashOrder) {p q : List FilePairing}
    (h : Forall₂ FilePairing.Same p q) : (finishFiles order p).Perm (finishFiles order' q) := by
  have hpools : p.flatMap (·.unpairedOld) = q.flatMap (·.unpairedOld) ∧
      p.flatMap (·.unpairedNew) = q.flatMap (·.unpairedNew) ∧
      (p.flatMap (·.changes)).Perm (q.flatMap (·.changes)) := by
    induction h with
    | nil => exact ⟨rfl, rfl, .nil⟩
    | cons h _ ih =>
      obtain ⟨hold, hnew, hchanges⟩ := ih
      simp only [flatMap_cons, h.unpairedOld, h.unpairedNew, hold, hnew, true_and]
      exact h.changes.append hchanges
  obtain ⟨hold, hnew, hchanges⟩ := hpools
  refine (perm_finishFiles order p).trans (Perm.trans ?_ (perm_finishFiles order' q).symm)
  have hgroups := pairGroups_same order order' 0 0 containerMoveKey (fun _ _ => true)
    ((q.flatMap (·.unpairedOld)).map some) ((q.flatMap (·.unpairedNew)).map some)
  unfold unsortedChanges
  dsimp only
  rw [hold, hnew, hgroups.old, hgroups.new]
  exact ((hchanges.append (hgroups.pairs.map _)).append_right _).append_right _

/-- Every file of a run has unambiguous rounds. -/
def RunUnambiguous (env : PairingEnv) (order : RunOrder) (files : List PairInputs) : Prop :=
  ∀ i inputs, files[i]? = some inputs → FileUnambiguous env (order.file i) inputs

theorem filePairings_same : ∀ {files : List PairInputs} {order : RunOrder},
    RunUnambiguous env order files → ∀ order' : RunOrder,
      Forall₂ FilePairing.Same (filePairings env order files) (filePairings env order' files)
  | [], _, _, _ => .nil
  | inputs :: files, order, h, order' => by
    have hrest : RunUnambiguous env ⟨fun i => order.file (i + 1), order.files⟩ files :=
      fun i f hf => h (i + 1) f hf
    have ih := filePairings_same hrest ⟨fun i => order'.file (i + 1), order'.files⟩
    simp only [filePairings, mapIdx_cons] at ih ⊢
    exact .cons (pairFile_same (h 0 inputs rfl) (order'.file 0)) ih

/-- A run with unambiguous rounds gives the same changes for every order of the hash maps. -/
theorem semanticChanges_perm {order : RunOrder} {files : List PairInputs}
    (h : RunUnambiguous env order files) (order' : RunOrder) :
    (semanticChanges env order files).Perm (semanticChanges env order' files) :=
  finishFiles_same order.files order'.files (filePairings_same h order')

end CodeMoniker
