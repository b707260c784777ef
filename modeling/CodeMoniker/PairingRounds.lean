import CodeMoniker.PairingLossless

/-!
# The rounds of the container renames

A round of `propagateContainerRenames` rewrites the tails below the renamed containers and pairs
again. `Propagates` is the loop without fuel, with the number of its rounds and the number of
times its body is entered. A rename has taken a definition out of its slot, so there are at most
as many rounds as definitions in the old slots. The body may be entered once more, and then
finds no tail to rewrite (`Propagates.rounds_le`,
`iterations_exceed_unpaired`).

The current definitions of a file have distinct tails. Then the exact stage leaves no tail on both
sides (`apart_pairExactTails`), and neither does the loop (`propagation_settles`).
-/

namespace CodeMoniker

open List Option ByteCodec

/-! ## The loop without fuel -/

/-- The loop ends in a state, after a number of rounds. The next number counts how often its body
is entered. -/
inductive Propagates (order : HashOrder) :
    ℕ → PairingState → RenameMap → ℕ → ℕ → PairingState → Prop
  | done (round : ℕ) (s : PairingState) : Propagates order round s [] 0 0 s
  | settled {round : ℕ} {s : PairingState} {renames : RenameMap} (hne : renames ≠ [])
      (hsame : (rewriteTails s.old renames).2 = false) :
      Propagates order round s renames 0 1 { s with old := (rewriteTails s.old renames).1 }
  | round {round : ℕ} {s t : PairingState} {renames : RenameMap} {rounds iterations : ℕ}
      (hne : renames ≠ []) (hrewrote : (rewriteTails s.old renames).2 = true)
      (hrest : Propagates order (round + 1) (roundStages order round s renames).1
        (roundStages order round s renames).2 rounds iterations t) :
      Propagates order round s renames (rounds + 1) (iterations + 1) t

theorem exists_def_of_rewriteTails {slots : Slots} {renames : RenameMap}
    (h : (rewriteTails slots renames).2 = true) : 0 < slots.defs.length := by
  obtain ⟨slot, hslot, hany⟩ := List.any_eq_true.mp h
  cases slot with
  | none => exact nomatch hany
  | some d => exact length_pos_of_mem (mem_filterMap.mpr ⟨some d, hslot, rfl⟩)

namespace Propagates

/-- The loop ends from every state. -/
theorem ends (order : HashOrder) (round : ℕ) (s : PairingState) (renames : RenameMap) :
    ∃ rounds iterations t, Propagates order round s renames rounds iterations t := by
  generalize hn : s.old.defs.length = n
  induction n using Nat.strong_induction_on generalizing round s renames with
  | _ n ih =>
    by_cases hnil : renames = []
    · subst hnil
      exact ⟨0, 0, s, .done round s⟩
    by_cases hrewrote : (rewriteTails s.old renames).2 = true
    · have hlen := length_roundStages order round s renames
      by_cases hnext : (roundStages order round s renames).2 = []
      · refine ⟨1, 1, (roundStages order round s renames).1, .round hnil hrewrote ?_⟩
        rw [hnext]
        exact .done _ _
      · have hstep := length_pos_iff.mpr hnext
        obtain ⟨rounds, iterations, t, hrest⟩ :=
          ih _ (by omega) (round + 1) (roundStages order round s renames).1
            (roundStages order round s renames).2 rfl
        exact ⟨rounds + 1, iterations + 1, t, .round hnil hrewrote hrest⟩
    · exact ⟨0, 1, _, .settled hnil (Bool.eq_false_iff.mpr hrewrote)⟩

variable {order : HashOrder} {round rounds iterations : ℕ} {s t : PairingState} {renames : RenameMap}
  (h : Propagates order round s renames rounds iterations t)

include h

/-- With a fuel for every old definition and one more the model of the source runs the loop. -/
theorem fuel :
    ∀ fuel, iterations ≤ fuel → propagateContainerRenames order fuel round s renames = t := by
  induction h with
  | done round s =>
    intro fuel _
    cases fuel <;> simp [propagateContainerRenames]
  | settled hne hsame =>
    intro fuel hfuel
    obtain ⟨fuel, rfl⟩ := Nat.exists_eq_add_of_le' hfuel
    simp only [propagateContainerRenames, if_neg hne, hsame, if_true]
  | round hne hrewrote hrest ih =>
    intro fuel hfuel
    obtain ⟨fuel, rfl⟩ := Nat.exists_eq_add_of_le' (Nat.le_trans (Nat.le_add_left 1 _) hfuel)
    have hnext := ih fuel (by omega)
    simp only [propagateContainerRenames, if_neg hne, hrewrote, Bool.true_eq_false, if_false]
    exact hnext

/-- The loop has one course. -/
theorem unique {rounds' iterations' : ℕ} {t' : PairingState}
    (h' : Propagates order round s renames rounds' iterations' t') :
    rounds' = rounds ∧ iterations' = iterations ∧ t' = t := by
  induction h generalizing rounds' iterations' t' with
  | done round s =>
    cases h' with
    | done => exact ⟨rfl, rfl, rfl⟩
    | settled hne => exact absurd rfl hne
    | round hne => exact absurd rfl hne
  | settled hne hsame =>
    cases h' with
    | done => exact absurd rfl hne
    | settled => exact ⟨rfl, rfl, rfl⟩
    | round _ hrewrote => exact absurd (hsame.symm.trans hrewrote) Bool.false_ne_true
  | round hne hrewrote hrest ih =>
    cases h' with
    | done => exact absurd rfl hne
    | settled _ hsame => exact absurd (hsame.symm.trans hrewrote) Bool.false_ne_true
    | round _ _ hrest' =>
      obtain ⟨rfl, rfl, rfl⟩ := ih hrest'
      exact ⟨rfl, rfl, rfl⟩

/-- A round needs an old definition, and renames for the next one take one away. -/
theorem rounds_le :
    rounds ≤ s.old.defs.length ∧ iterations ≤ rounds + 1 := by
  induction h with
  | done round s => exact ⟨Nat.zero_le _, Nat.zero_le _⟩
  | settled => exact ⟨Nat.zero_le _, le_rfl⟩
  | @round round s t renames rounds iterations hne hrewrote hrest ih =>
    have hlen := length_roundStages order round s renames
    have hpos := exists_def_of_rewriteTails hrewrote
    refine ⟨?_, Nat.succ_le_succ ih.2⟩
    by_cases hnext : (roundStages order round s renames).2 = []
    · rw [hnext] at hrest
      cases hrest with
      | done => exact hpos
      | settled hne => exact absurd rfl hne
      | round hne => exact absurd rfl hne
    · have hstep := length_pos_iff.mpr hnext
      omega

end Propagates

/-! ## Tails on both sides -/

namespace PairingState

/-- The current definitions have distinct tails. -/
def DistinctNew (s : PairingState) : Prop := (s.new.defs.map (·.tail)).Nodup

/-- No tail is left on both sides. -/
def Apart (s : PairingState) : Prop := ∀ d ∈ s.old.defs, ∀ e ∈ s.new.defs, d.tail ≠ e.tail

end PairingState

/-- The map holds exactly the tails of the slots. -/
def Indexes (byTail : AList fun _ : IdentityTail => ℕ) (slots : Slots) : Prop :=
  ∀ tail i, byTail.lookup tail = some i ↔ ∃ d, slots[i]?.join = some d ∧ d.tail = tail

theorem slot_of_lookup_foldl_insertTail {tail : IdentityTail} {i : ℕ} :
    ∀ {slots : List (Option SideDef × ℕ)} {byTail : AList fun _ : IdentityTail => ℕ},
      (slots.foldl insertTail byTail).lookup tail = some i →
      byTail.lookup tail = some i ∨ ∃ d, (some d, i) ∈ slots ∧ d.tail = tail
  | [], _, h => Or.inl h
  | (none, _) :: slots, byTail, h => by
    rcases @slot_of_lookup_foldl_insertTail _ _ slots _ h with h | ⟨d, hd, htail⟩
    · exact Or.inl h
    · exact Or.inr ⟨d, .tail _ hd, htail⟩
  | (some e, j) :: slots, byTail, h => by
    rcases @slot_of_lookup_foldl_insertTail _ _ slots _ h with h | ⟨d, hd, htail⟩
    · by_cases htail : tail = e.tail
      · subst htail
        rw [insertTail, AList.lookup_insert] at h
        obtain rfl := some.inj h
        exact Or.inr ⟨e, .head _, rfl⟩
      · rw [insertTail, AList.lookup_insert_ne htail] at h
        exact Or.inl h
    · exact Or.inr ⟨d, .tail _ hd, htail⟩

theorem indexes_slotsByTail {slots : Slots} (hnodup : (slots.defs.map (·.tail)).Nodup) :
    Indexes (slotsByTail slots) slots := by
  intro tail i
  constructor
  · intro h
    rcases slot_of_lookup_foldl_insertTail h with h | ⟨d, hd, htail⟩
    · exact nomatch h
    · exact ⟨d, join_eq_some_iff.mpr (mem_zipIdx_iff_getElem?.mp hd), htail⟩
  · rintro ⟨d, hd, rfl⟩
    exact lookup_slotsByTail hnodup hd

theorem join_getElem?_set_none (slots : Slots) (i : ℕ) : (slots.set i none)[i]?.join = none := by
  rw [getElem?_set, if_pos rfl]
  split_ifs <;> rfl

theorem Indexes.erase {byTail : AList fun _ : IdentityTail => ℕ} {slots : Slots}
    (h : Indexes byTail slots) {tail : IdentityTail} {i : ℕ} (hi : byTail.lookup tail = some i) :
    Indexes (byTail.erase tail) (slots.set i none) := by
  intro tail' j
  by_cases htail : tail' = tail
  · subst htail
    rw [AList.lookup_erase]
    refine ⟨fun h => (nomatch h), ?_⟩
    rintro ⟨d, hd, hdt⟩
    have hne : i ≠ j := by
      rintro rfl
      rw [join_getElem?_set_none] at hd
      exact nomatch hd
    rw [getElem?_set_ne hne] at hd
    exact absurd (some.inj (hi.symm.trans ((h tail' j).mpr ⟨d, hd, hdt⟩))) hne
  · rw [AList.lookup_erase_ne htail, h tail' j]
    refine exists_congr fun d => and_congr_left fun hdt => ?_
    by_cases hij : i = j
    · subst hij
      obtain ⟨e, he, het⟩ := (h tail i).mp hi
      constructor
      · intro hd
        exact absurd (hdt.symm.trans (some.inj (hd.symm.trans he) ▸ het)) htail
      · intro hd
        rw [join_getElem?_set_none] at hd
        exact nomatch hd
    · rw [getElem?_set_ne hij]

/-- What the exact stage leaves was there before. -/
theorem mem_exactTails {d : SideDef} (byTail : AList fun _ : IdentityTail => ℕ) (new old : Slots) :
    (d ∈ Slots.defs (exactTails byTail new old).1 → d ∈ old.defs) ∧
      (d ∈ Slots.defs (exactTails byTail new old).2.1 → d ∈ new.defs) :=
  ⟨fun h => (perm_exactTails .base byTail new old).mem_iff.mpr (mem_append_right _ h),
    fun h => (perm_exactTails .current byTail new old).mem_iff.mpr (mem_append_right _ h)⟩

theorem apart_exactTails : ∀ (byTail : AList fun _ : IdentityTail => ℕ) (new old : Slots),
    Indexes byTail new → ∀ d ∈ Slots.defs (exactTails byTail new old).1,
      ∀ e ∈ Slots.defs (exactTails byTail new old).2.1, d.tail ≠ e.tail
  | _, _, [], _, d, hd => absurd hd (not_mem_nil (a := d))
  | byTail, new, none :: old, h, d, hd => apart_exactTails byTail new old h d hd
  | byTail, new, some f :: old, h, d, hd => by
    simp only [exactTails] at hd ⊢
    split at hd
    · next hnone =>
      rcases mem_cons.mp hd with rfl | hd
      · -- A slot with this tail would be in the map.
        intro e he htail
        obtain ⟨slot, hslot, rfl⟩ := mem_filterMap.mp ((mem_exactTails byTail new old).2 he)
        obtain ⟨i, hi⟩ := mem_iff_getElem?.mp hslot
        have hjoin : new[i]?.join = some e := join_eq_some_iff.mpr hi
        rw [(h d.tail i).mpr ⟨e, hjoin, htail.symm⟩, bind_some, hjoin] at hnone
        cases hnone
      · exact apart_exactTails byTail new old h d hd
    · next newIdx n htake =>
      obtain ⟨i, hi, hmap⟩ := bind_eq_some_iff.mp htake
      obtain ⟨e, -, hpair⟩ := map_eq_some_iff.mp hmap
      obtain ⟨rfl, rfl⟩ := Prod.mk.inj hpair
      exact apart_exactTails _ _ old (h.erase hi) d hd

namespace PairingState

variable {s : PairingState}

/-- The exact stage leaves no tail on both sides. -/
theorem DistinctNew.apart_pairExactTails (h : s.DistinctNew) : (pairExactTails s).Apart :=
  apart_exactTails _ _ _ (indexes_slotsByTail h)

theorem DistinctNew.of_perm {slots rest : Slots} {taken : List SideDef}
    (h : (slots.defs.map (·.tail)).Nodup) (hperm : slots.defs.Perm (taken ++ rest.defs)) :
    (rest.defs.map (·.tail)).Nodup := by
  have hmap := (hperm.map (·.tail)).nodup_iff.mp h
  rw [map_append] at hmap
  exact hmap.of_append_right

theorem DistinctNew.pairExactTails (h : s.DistinctNew) : (pairExactTails s).DistinctNew :=
  DistinctNew.of_perm h (perm_exactTails .current (slotsByTail s.new) s.new s.old)

section Stage

variable {κ : Type} [DecidableEq κ] {order : HashOrder} {call : ℕ} {key : SideDef → Option κ}
  {accept : SideDef → SideDef → Bool} {change : SideDef → SideDef → SymbolChange}

theorem DistinctNew.pairBy (h : s.DistinctNew) :
    (s.pairBy order call key accept change).1.DistinctNew :=
  DistinctNew.of_perm h (perm_pairGroups .current order call key accept s.old s.new)

theorem Apart.pairBy (h : s.Apart) : (s.pairBy order call key accept change).1.Apart := by
  intro d hd e he
  have hold := perm_pairGroups .base order call key accept s.old s.new
  have hnew := perm_pairGroups .current order call key accept s.old s.new
  exact h d (hold.mem_iff.mpr (mem_append_right _ hd)) e
    (hnew.mem_iff.mpr (mem_append_right _ he))

end Stage

/-- A round leaves no tail on both sides. -/
theorem DistinctNew.roundStages (h : s.DistinctNew) (order : HashOrder) (round : ℕ) :
    (pairSignaturesAndNames order round (CodeMoniker.pairExactTails s)).1.DistinctNew ∧
      (pairSignaturesAndNames order round (CodeMoniker.pairExactTails s)).1.Apart :=
  ⟨h.pairExactTails.pairBy.pairBy, h.apart_pairExactTails.pairBy.pairBy⟩

/-- A tail that no rename matches stays. -/
theorem Apart.rewriteTails (h : s.Apart) {renames : RenameMap}
    (hsame : (CodeMoniker.rewriteTails s.old renames).2 = false) :
    ({ s with old := (CodeMoniker.rewriteTails s.old renames).1 } : PairingState).Apart := by
  have hslots : (CodeMoniker.rewriteTails s.old renames).1 = s.old := by
    refine (map_congr_left fun slot hslot => ?_).trans (List.map_id s.old)
    cases slot with
    | none => rfl
    | some d =>
      have hnone := List.any_eq_false.mp hsame (some d) hslot
      rw [any_some, Bool.not_eq_true, isSome_eq_false_iff, isNone_iff_eq_none] at hnone
      simp [rewriteSlot, hnone]
  rw [hslots]
  exact h

end PairingState

theorem Propagates.apart {order : HashOrder} {round rounds iterations : ℕ} {s t : PairingState}
    {renames : RenameMap} (h : Propagates order round s renames rounds iterations t)
    (hnew : s.DistinctNew) (hapart : s.Apart) : t.Apart := by
  induction h with
  | done round s => exact hapart
  | settled hne hsame => exact hapart.rewriteTails hsame
  | @round round s t renames rounds iterations hne hrewrote hrest ih =>
    have hstart : ({ s with old := (rewriteTails s.old renames).1 } : PairingState).DistinctNew :=
      hnew
    obtain ⟨hnew', hapart'⟩ := hstart.roundStages order round
    exact ih hnew' hapart'

/-! ## The loop of a file -/

/-- Distinct monikers below one root have distinct tails. -/
theorem tails_nodup_of_distinct {env : PairingEnv} {file : FileSide}
    (h : (file.graph.defs.map (·.moniker)).Nodup) :
    ((Slots.defs (collectSideDefs env file)).map (·.tail)).Nodup := by
  have hparts : ∀ {spans : List Position} {lines : LineIndex} {d : DefRecord} {e : SideDef},
      sideDef env file spans lines d = some e → ∃ root, file.graph.root = some root ∧
        root.project = d.moniker.project ∧ d.moniker.segments = root.segments ++ e.tail := by
    intro spans lines d e he
    obtain ⟨root, hroot, he⟩ := bind_eq_some_iff.mp he
    obtain ⟨tail, htail, he⟩ := bind_eq_some_iff.mp he
    obtain ⟨last, -, he⟩ := bind_eq_some_iff.mp he
    obtain rfl := some.inj he
    rw [identityTail] at htail
    split_ifs at htail with hbelow
    obtain ⟨hproject, rest, hrest⟩ := Moniker.segments_prefix_of_isAncestorOf hbelow
    obtain rfl := some.inj htail
    exact ⟨root, hroot, hproject, by rw [← hrest, drop_left]⟩
  have hnav : ((file.navigableDefs env).map (·.moniker)).Nodup :=
    h.sublist ((filter_sublist (p := env.isNavigableDef file.lang)).map _)
  rw [collectSideDefs, Slots.defs_map_some]
  refine pairwise_map.mpr (List.Pairwise.filterMap _ ?_ (pairwise_map.mp hnav))
  intro a b hne a' ha b' hb htail
  obtain ⟨root, hroot, hproject, hsegments⟩ := hparts ha
  obtain ⟨root', hroot', hproject', hsegments'⟩ := hparts hb
  obtain rfl := some.inj (hroot.symm.trans hroot')
  exact hne (Moniker.ext_segments (hproject.symm.trans hproject')
    (by rw [hsegments, hsegments', htail]))

/-- The state with which a file comes to the loop, and its first renames. -/
def firstStages (env : PairingEnv) (order : HashOrder) (inputs : PairInputs) :
    PairingState × RenameMap :=
  pairSignaturesAndNames order 0 (pairExactTails (startState env inputs))

/-- The loop ends from every state, after at most as many rounds as there are unpaired base
definitions. Its body may be entered once more, without a tail to rewrite. In a file it leaves no
base definition with the tail of a current one. -/
theorem propagation_settles (env : PairingEnv) (order : HashOrder) (inputs : PairInputs)
    (hcurrent : (inputs.current.graph.defs.map (·.moniker)).Nodup) :
    (∀ round s renames, ∃ rounds iterations t,
      Propagates order round s renames rounds iterations t ∧
      rounds ≤ s.old.defs.length ∧ iterations ≤ rounds + 1 ∧
      (∀ rounds' iterations' t', Propagates order round s renames rounds' iterations' t' →
        rounds' = rounds ∧ iterations' = iterations ∧ t' = t) ∧ ∀ fuel, s.old.defs.length < fuel →
        propagateContainerRenames order fuel round s renames = t) ∧ (∃ rounds iterations,
      Propagates order 1 (firstStages env order inputs).1 (firstStages env order inputs).2
        rounds iterations (pairedState env order inputs)) ∧
    (pairedState env order inputs).Apart := by
  constructor
  · intro round s renames
    obtain ⟨rounds, iterations, t, h⟩ := Propagates.ends order round s renames
    obtain ⟨hrounds, hiterations⟩ := h.rounds_le
    exact ⟨rounds, iterations, t, h, hrounds, hiterations, fun _ _ _ h' => h.unique h',
      fun fuel hfuel => h.fuel fuel (by omega)⟩
  · obtain ⟨rounds, iterations, t, h⟩ :=
      Propagates.ends order 1 (firstStages env order inputs).1 (firstStages env order inputs).2
    obtain ⟨hrounds, hiterations⟩ := h.rounds_le
    have hpaired : pairedState env order inputs = t := by
      rw [← pairedState_fuel env order inputs ((firstStages env order inputs).1.old.defs.length + 1)]
      exact h.fuel _ (by omega)
    have hstart : (startState env inputs).DistinctNew := tails_nodup_of_distinct hcurrent
    obtain ⟨hnew, hapart⟩ := hstart.roundStages order 0
    rw [hpaired]
    exact ⟨⟨rounds, iterations, h⟩, h.apart hnew hapart⟩

theorem admitted_structB :
    ∀ s ∈ [("module", "m"), ("struct", "B")].map segmentOf, s.Admitted := by decide

/-- The struct is now `B`, its method `y`, and the function inside it `j`. -/
def structBRenamedThrough : FileSide := threeDefs "Byj"
  (appMoniker [("module", "m"), ("struct", "B")] admitted_structB)
  (appMoniker [("module", "m"), ("struct", "B"), ("method", "y()")] (by decide))
  (appMoniker [("module", "m"), ("struct", "B"), ("method", "y()"), ("fn", "j()")] (by decide))

theorem propagation_settles_renamedThrough :
    (pairedState lengthEnv (foundOrder.file 0) ⟨structA, structBRenamedThrough, false⟩).Apart :=
  (propagation_settles lengthEnv (foundOrder.file 0) ⟨structA, structBRenamedThrough, false⟩
    (by decide)).2.2

/-- Two base definitions are unpaired when the loop starts, and its body is entered three times :
the method and the function are renamed in one round each. And from a state before the exact stage
the loop ends at once, with equal tails on both sides. -/
theorem iterations_exceed_unpaired : (¬∀ (env : PairingEnv) (order : HashOrder)
    (inputs : PairInputs) (rounds iterations : ℕ) (t : PairingState),
    Propagates order 1 (firstStages env order inputs).1 (firstStages env order inputs).2
      rounds iterations t → iterations ≤ (firstStages env order inputs).1.old.defs.length) ∧
    ¬∀ (order : HashOrder) (s t : PairingState), Propagates order 1 s [] 0 0 t → t.Apart := by
  refine ⟨fun h => ?_, fun h => ?_⟩
  swap
  · have hstart := h (foundOrder.file 0) (startState lengthEnv ⟨structA, structA, false⟩) _ (.done _ _)
    unfold PairingState.Apart at hstart
    revert hstart
    decide +kernel
  have hrun : Propagates (foundOrder.file 0) 1
      (firstStages lengthEnv (foundOrder.file 0) ⟨structA, structBRenamedThrough, false⟩).1
      (firstStages lengthEnv (foundOrder.file 0) ⟨structA, structBRenamedThrough, false⟩).2 2 3 _ :=
    .round (by decide +kernel) (by decide +kernel)
      (.round (by decide +kernel) (by decide +kernel)
        (.settled (by decide +kernel) (by decide +kernel)))
  have hle := h _ _ _ _ _ _ hrun
  exact absurd hle (by decide +kernel)

end CodeMoniker
