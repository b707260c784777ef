import CodeMoniker.PairingOrder

/-!
# Pairing loses nothing

Identical sides pair with themselves and leave nothing (`semanticChanges_identical`). With the
places of `places_semanticChanges` and the orders of `semanticChanges_perm` this says what a run
returns (`semanticChanges_lossless`) : every definition is in one place, and unambiguous rounds
give the same changes for every order of the hash maps. An ambiguous round does not
(`ambiguous_round_depends_on_order`).
-/

namespace CodeMoniker

open List ByteCodec

/-! ## Identical sides -/

section ByTail

/-- One step of the loop of `slotsByTail`. -/
def insertTail (byTail : AList fun _ : IdentityTail => ℕ) (slot : Option SideDef × ℕ) :
    AList fun _ : IdentityTail => ℕ :=
  match slot.1 with
  | some d => byTail.insert d.tail slot.2
  | none => byTail

theorem lookup_foldl_insertTail_of_ne {tail : IdentityTail} :
    ∀ (slots : List (Option SideDef × ℕ)) (byTail : AList fun _ : IdentityTail => ℕ),
      (∀ d ∈ Slots.defs (slots.map (·.1)), d.tail ≠ tail) →
      (slots.foldl insertTail byTail).lookup tail = byTail.lookup tail
  | [], _, _ => rfl
  | (none, _) :: slots, byTail, h => lookup_foldl_insertTail_of_ne slots byTail h
  | (some d, i) :: slots, byTail, h => by
    rw [foldl_cons, lookup_foldl_insertTail_of_ne slots _ fun e he => h e (.tail d he)]
    exact AList.lookup_insert_ne (h d (.head _)).symm

theorem lookup_foldl_insertTail {d : SideDef} {i : ℕ} :
    ∀ (slots : List (Option SideDef × ℕ)) (byTail : AList fun _ : IdentityTail => ℕ),
      ((Slots.defs (slots.map (·.1))).map (·.tail)).Nodup → (some d, i) ∈ slots →
      (slots.foldl insertTail byTail).lookup d.tail = some i
  | [], _, _, h => nomatch h
  | (none, j) :: slots, byTail, hnodup, h => by
    have hrest : (some d, i) ∈ slots := by simpa using h
    exact lookup_foldl_insertTail slots byTail hnodup hrest
  | (some e, j) :: slots, byTail, hnodup, h => by
    obtain ⟨hne, hnodup⟩ := nodup_cons.mp hnodup
    rcases mem_cons.mp h with heq | hrest
    · obtain ⟨he, rfl⟩ := Prod.mk.inj heq
      obtain rfl := Option.some.inj he
      rw [foldl_cons, lookup_foldl_insertTail_of_ne slots _ fun f hf htail =>
        hne (mem_map.mpr ⟨f, hf, htail⟩)]
      exact AList.lookup_insert _
    · exact lookup_foldl_insertTail slots _ hnodup hrest

/-- With distinct tails every definition is found in its slot. -/
theorem lookup_slotsByTail {slots : Slots} (hnodup : (slots.defs.map (·.tail)).Nodup)
    {d : SideDef} {i : ℕ} (h : slots[i]?.join = some d) :
    (slotsByTail slots).lookup d.tail = some i := by
  have hmem : (some d, i) ∈ slots.zipIdx :=
    mem_zipIdx_iff_getElem?.mpr (Option.join_eq_some_iff.mp h)
  have hslots : slots.zipIdx.map (·.1) = slots := zipIdx_map_fst 0 slots
  exact lookup_foldl_insertTail slots.zipIdx ∅ (by rwa [hslots]) hmem

end ByTail

/-- When every old definition is found in a new slot of its own, the exact stage pairs each with
itself. -/
theorem exactTails_self : ∀ (byTail : AList fun _ : IdentityTail => ℕ) (new old : Slots),
    (old.defs.map (·.tail)).Nodup →
    (∀ d ∈ old.defs, ∃ i, byTail.lookup d.tail = some i ∧ new[i]?.join = some d) →
    Slots.defs (exactTails byTail new old).1 = [] ∧
      (exactTails byTail new old).2.2 = old.defs.map fun d => (d, d)
  | _, _, [], _, _ => ⟨rfl, rfl⟩
  | byTail, new, none :: old, hnodup, hfound => exactTails_self byTail new old hnodup hfound
  | byTail, new, some d :: old, hnodup, hfound => by
    obtain ⟨hne, hnodup⟩ := nodup_cons.mp hnodup
    obtain ⟨i, hlookup, hslot⟩ := hfound d (.head _)
    have hrest : ∀ e ∈ Slots.defs old, ∃ j, (byTail.erase d.tail).lookup e.tail = some j ∧
        (new.set i none)[j]?.join = some e := by
      intro e he
      obtain ⟨j, hj, hnew⟩ := hfound e (.tail d he)
      have htail : e.tail ≠ d.tail := fun h => hne (mem_map.mpr ⟨e, he, h⟩)
      have hij : i ≠ j := by
        rintro rfl
        rw [hslot] at hnew
        exact htail (Option.some.inj hnew ▸ rfl)
      exact ⟨j, by rwa [AList.lookup_erase_ne htail], by rwa [getElem?_set_ne hij]⟩
    obtain ⟨hdefs, hpairs⟩ := exactTails_self (byTail.erase d.tail) (new.set i none) old hnodup hrest
    simp only [exactTails, hlookup, Option.bind_some, hslot, Option.map_some]
    exact ⟨hdefs, congrArg ((d, d) :: ·) hpairs⟩

theorem matchedFacets_self (d : SideDef) : (matchedFacets false d d).any = false := by
  simp [matchedFacets, ChangeFacets.any]

/-- Nothing is left in the slots, and nothing has changed. -/
structure PairingState.Quiet (s : PairingState) : Prop where
  old : s.old.defs = []
  new : s.new.defs = []
  changes : s.changes = []

theorem PairingState.Quiet.of_identical {s : PairingState} (hsame : s.old = s.new)
    (hnodup : (s.new.defs.map (·.tail)).Nodup) (hmoved : s.fileMoved = false)
    (hchanges : s.changes = []) : (pairExactTails s).Quiet := by
  have hfound : ∀ d ∈ s.old.defs, ∃ i, (slotsByTail s.new).lookup d.tail = some i ∧
      s.new[i]?.join = some d := by
    intro d hd
    obtain ⟨slot, hslot, rfl⟩ := mem_filterMap.mp hd
    obtain ⟨i, hi⟩ := mem_iff_getElem?.mp (hsame ▸ hslot)
    have hjoin : s.new[i]?.join = some d := Option.join_eq_some_iff.mpr hi
    exact ⟨i, lookup_slotsByTail hnodup hjoin, hjoin⟩
  obtain ⟨hold, hpairs⟩ := exactTails_self (slotsByTail s.new) s.new s.old
    (by rwa [hsame]) hfound
  have hleft := (perm_exactTails .current (slotsByTail s.new) s.new s.old).length_eq
  rw [hpairs] at hleft
  simp only [DiffSide.ofPair, length_append, length_map, hsame] at hleft
  refine ⟨hold, length_eq_zero_iff.mp ?_, ?_⟩
  · simp only [pairExactTails, hsame]
    exact Nat.left_eq_add.mp hleft
  · simp only [pairExactTails, hpairs, hchanges, nil_append, filterMap_eq_nil_iff, mem_map]
    rintro p ⟨d, -, rfl⟩
    rw [hmoved]
    exact classifyMatched_eq_none.mpr (matchedFacets_self d)

/-- Empty slots have no pairs. -/
theorem pairGroups_empty {κ : Type} [DecidableEq κ] (order : HashOrder) (call : ℕ)
    (key : SideDef → Option κ) (accept : SideDef → SideDef → Bool) {old new : Slots}
    (hold : old.defs = []) (hnew : new.defs = []) :
    (pairGroups order call key accept old new).pairs = [] ∧
      Slots.defs (pairGroups order call key accept old new).old = [] ∧
      Slots.defs (pairGroups order call key accept old new).new = [] := by
  have hbase := (perm_pairGroups .base order call key accept old new).symm
  have hcurrent := (perm_pairGroups .current order call key accept old new).symm
  simp only [DiffSide.ofPair, hold] at hbase
  simp only [DiffSide.ofPair, hnew] at hcurrent
  have hbase := append_eq_nil_iff.mp hbase.eq_nil
  have hcurrent := append_eq_nil_iff.mp hcurrent.eq_nil
  exact ⟨map_eq_nil_iff.mp hbase.1, hbase.2, hcurrent.2⟩

theorem PairingState.Quiet.pairBy {κ : Type} [DecidableEq κ] {order : HashOrder} {call : ℕ}
    {key : SideDef → Option κ} {accept : SideDef → SideDef → Bool}
    {change : SideDef → SideDef → SymbolChange} {s : PairingState} (h : s.Quiet) :
    (s.pairBy order call key accept change).1.Quiet ∧
      (s.pairBy order call key accept change).2 = [] := by
  obtain ⟨hpairs, hold, hnew⟩ := pairGroups_empty order call key accept h.old h.new
  unfold PairingState.pairBy
  dsimp only
  rw [hpairs]
  exact ⟨⟨hold, hnew, by simp [h.changes]⟩, rfl⟩

theorem PairingState.Quiet.pairSignaturesAndNames {s : PairingState} (order : HashOrder)
    (round : ℕ) (h : s.Quiet) : (pairSignaturesAndNames order round s).1.Quiet ∧
      (CodeMoniker.pairSignaturesAndNames order round s).2 = [] := by
  have hsignatures : (pairSignatureChanges order (2 * round) s).1.Quiet ∧
      (pairSignatureChanges order (2 * round) s).2 = [] := h.pairBy
  have hnames : (pairRenames order (2 * round + 1)
        (pairSignatureChanges order (2 * round) s).1).1.Quiet ∧
      (pairRenames order (2 * round + 1) (pairSignatureChanges order (2 * round) s).1).2 = [] :=
    hsignatures.1.pairBy
  refine ⟨hnames.1, ?_⟩
  unfold CodeMoniker.pairSignaturesAndNames
  dsimp only
  rw [hsignatures.2, hnames.2, append_nil]

variable {env : PairingEnv}

theorem pairFile_identical (order : HashOrder) {inputs : PairInputs}
    (hroot : inputs.current.BelowRoot env) (hsame : inputs.base = inputs.current)
    (hmoved : inputs.fileMoved = false) :
    (pairFile env order inputs).changes = [] ∧ (pairFile env order inputs).unpairedOld = [] ∧
      (pairFile env order inputs).unpairedNew = [] := by
  have hexact : (pairExactTails (startState env inputs)).Quiet :=
    .of_identical (congrArg (collectSideDefs env) hsame) hroot.tails_nodup hmoved rfl
  obtain ⟨hquiet, hnone⟩ := hexact.pairSignaturesAndNames order 0
  have hstate : (pairedState env order inputs).Quiet := by
    unfold pairedState
    dsimp only
    rw [hnone]
    cases (pairSignaturesAndNames order 0 (pairExactTails (startState env inputs))).1.old.length with
    | zero => exact hquiet
    | succ fuel => simpa only [propagateContainerRenames, if_true] using hquiet
  have hroots : ∀ slots : Slots, slots.defs = [] → (collapsedRoots slots).1 = [] := by
    intro slots hslots
    simp [collapsedRoots, hslots]
  rw [pairFile_eq]
  exact ⟨hstate.changes, hroots _ hstate.old, hroots _ hstate.new⟩

/-- Identical sides and no moved file leave nothing to report. -/
theorem semanticChanges_identical (order : RunOrder) {files : List PairInputs}
    (h : ∀ inputs ∈ files, inputs.current.BelowRoot env ∧ inputs.base = inputs.current ∧
      inputs.fileMoved = false) : semanticChanges env order files = [] := by
  have hpairing : ∀ p ∈ filePairings env order files,
      p.changes = [] ∧ p.unpairedOld = [] ∧ p.unpairedNew = [] := by
    intro p hp
    obtain ⟨i, inputs, hinputs, rfl⟩ := mem_filePairings hp
    obtain ⟨hroot, hsame, hmoved⟩ := h inputs (mem_of_getElem? hinputs)
    exact pairFile_identical (order.file i) hroot hsame hmoved
  have hflat : ∀ {α : Type} (f : FilePairing → List α),
      (∀ p ∈ filePairings env order files, f p = []) →
        (filePairings env order files).flatMap f = [] :=
    fun f hf => flatMap_eq_nil_iff.mpr hf
  have hold := hflat (·.unpairedOld) fun p hp => (hpairing p hp).2.1
  have hnew := hflat (·.unpairedNew) fun p hp => (hpairing p hp).2.2
  have hchanges := hflat (·.changes) fun p hp => (hpairing p hp).1
  obtain ⟨hpairs, hleftOld, hleftNew⟩ := pairGroups_empty order.files 0 containerMoveKey
    (fun _ _ => true) Slots.defs_nil Slots.defs_nil
  refine Perm.eq_nil ((perm_finishFiles order.files (filePairings env order files)).trans
    (.of_eq ?_))
  simp only [unsortedChanges, hold, hnew, hchanges, map_nil, hpairs, hleftOld, hleftNew, append_nil]

/-! ## A run -/

/-- Pairing is a lossless partial matching. Each definition of a side that the language shows is
in exactly one place : on its side of a change, in a pair without a facet, or collapsed below a
root. The sides of a change fit its kind. Unambiguous rounds give the same changes for every order
of the hash maps, and identical sides give none. -/
theorem semanticChanges_lossless (env : PairingEnv) (order : RunOrder) (files : List PairInputs)
    (hroot : ∀ inputs ∈ files, ∀ x : DiffSide, (x.ofInputs inputs).BelowRoot env) : (∀ x : DiffSide,
      (∀ inputs ∈ files, ((x.ofInputs inputs).sides env).map (·.moniker) =
        ((x.ofInputs inputs).navigableDefs env).map (·.moniker)) ∧
      (files.flatMap fun inputs => (x.ofInputs inputs).sides env).Perm
        ((semanticChanges env order files).filterMap x.ofChange ++
          (filePairings env order files).flatMap fun p =>
            p.matched.map (fun m => (x.ofPair m).side) ++ (x.collapsed p).map (·.side)) ∧
      ∀ p ∈ filePairings env order files, ∀ d ∈ x.collapsed p,
        ∃ root ∈ x.unpaired p, root.tail ≠ d.tail ∧ root.tail <+: d.tail) ∧
    (∀ i inputs, files[i]? = some inputs → ∀ m ∈ (pairFile env (order.file i) inputs).matched,
        (matchedFacets inputs.fileMoved m.1 m.2).any = false) ∧
    (∀ c ∈ semanticChanges env order files, c.WellSided) ∧
    (RunUnambiguous env order files → ∀ order' : RunOrder,
      (semanticChanges env order files).Perm (semanticChanges env order' files)) ∧
    ((∀ inputs ∈ files, inputs.base = inputs.current ∧ inputs.fileMoved = false) →
      semanticChanges env order files = []) := by
  refine ⟨fun x => ⟨fun inputs hin => (hroot inputs hin x).sides_moniker,
    places_semanticChanges order files x, ?_⟩, ?_, ?_, semanticChanges_perm, ?_⟩
  · intro p hp d hd
    obtain ⟨i, inputs, -, rfl⟩ := mem_filePairings hp
    exact collapsed_below env (order.file i) inputs x hd
  · intro i inputs _ m hm
    exact matched_pairFile env (order.file i) inputs hm
  · intro c hc
    refine wellSided_unsortedChanges (fun p hp => ?_) c
      ((perm_finishFiles order.files (filePairings env order files)).mem_iff.mp hc)
    obtain ⟨i, inputs, -, rfl⟩ := mem_filePairings hp
    exact (pairedState_sound env (order.file i) inputs).changes
  · intro h
    exact semanticChanges_identical order fun inputs hin =>
      ⟨hroot inputs hin .current, h inputs hin⟩

/-! ## A renamed struct and a renamed method -/

/-- A moniker of `app`. -/
def appMoniker (path : List (String × String))
    (h : ∀ s ∈ path.map segmentOf, s.Admitted) : Moniker :=
  .ofParts (byteString "app") (path.map segmentOf) admitted_app h

def appModule : Moniker := appMoniker [("module", "m")] (by decide)

/-- A definition of one byte of the source. -/
def byteDef (kind : String) (moniker : Moniker) (position : Option Position) : DefRecord where
  moniker
  kind := byteString kind
  parent := position.map fun _ => 0
  position
  visibility := []
  signature := []
  callName := []
  callArity := none
  binding := []
  origin := []

/-- A file of three definitions, each inside the one before or beside it. -/
def threeDefs (source : String) (type method nested : Moniker) : FileSide where
  lang := .rs
  graph := CodeGraph.fromRecords
    [byteDef "module" appModule none,
      byteDef "struct" type (some (0, 1)), byteDef "method" method (some (1, 2)),
      byteDef "fn" nested (some (2, 3))] []
  source := byteString source
  filePath := []

/-- `A` with its method `x`, and a function inside `x`. -/
def structA : FileSide := threeDefs "Axi"
  (appMoniker [("module", "m"), ("struct", "A")] (by decide))
  (appMoniker [("module", "m"), ("struct", "A"), ("method", "x()")] (by decide))
  (appMoniker [("module", "m"), ("struct", "A"), ("method", "x()"), ("fn", "i()")] (by decide))

/-- The struct is now `B`. -/
def structB : FileSide := threeDefs "Bxi"
  (appMoniker [("module", "m"), ("struct", "B")] (by decide))
  (appMoniker [("module", "m"), ("struct", "B"), ("method", "x()")] (by decide))
  (appMoniker [("module", "m"), ("struct", "B"), ("method", "x()"), ("fn", "i()")] (by decide))

/-- The struct is now `B`, and the method of `A` is `y`. -/
def structBMethodY : FileSide := threeDefs "Byi"
  (appMoniker [("module", "m"), ("struct", "B")] (by decide))
  (appMoniker [("module", "m"), ("struct", "A"), ("method", "y()")] (by decide))
  (appMoniker [("module", "m"), ("struct", "A"), ("method", "y()"), ("fn", "i()")] (by decide))

/-- Every fingerprint here is of one masked name, so the hasher does not matter. -/
def lengthEnv : PairingEnv where
  isNavigableDef _ d := d.kind ≠ byteString "module"
  hash := List.length

def foundOrder : RunOrder :=
  ⟨fun _ => ⟨fun _ groups => groups, fun _ _ => .refl _⟩, ⟨fun _ groups => groups, fun _ _ => .refl _⟩⟩

def reversedOrder : RunOrder :=
  ⟨fun _ => ⟨fun _ groups => groups.reverse, fun _ groups => groups.reverse_perm⟩,
    ⟨fun _ groups => groups.reverse, fun _ groups => groups.reverse_perm⟩⟩

theorem belowRoot_of_module {file : FileSide} (hroot : file.graph.root = some appModule)
    (hdistinct : (file.graph.defs.map (·.moniker)).Nodup)
    (hbelow : ∀ d ∈ file.navigableDefs lengthEnv,
      appModule.isAncestorOf d.moniker = true ∧ d.moniker ≠ appModule) : file.BelowRoot lengthEnv :=
  ⟨hdistinct, fun d hd => ⟨appModule, hroot, hbelow d hd⟩⟩

theorem belowRoot_structA : structA.BelowRoot lengthEnv :=
  belowRoot_of_module rfl (by decide) (by decide)

theorem belowRoot_structB : structB.BelowRoot lengthEnv :=
  belowRoot_of_module rfl (by decide) (by decide)

theorem belowRoot_structBMethodY : structBMethodY.BelowRoot lengthEnv :=
  belowRoot_of_module rfl (by decide) (by decide)

theorem belowRoot_singleton {base current : FileSide} (fileMoved : Bool)
    (hbase : base.BelowRoot env) (hcurrent : current.BelowRoot env) :
    ∀ inputs ∈ [PairInputs.mk base current fileMoved], ∀ x : DiffSide,
      (x.ofInputs inputs).BelowRoot env := by
  intro inputs hin x
  obtain rfl := mem_singleton.mp hin
  cases x
  · exact hbase
  · exact hcurrent

theorem fileUnambiguous_structB :
    FileUnambiguous lengthEnv (foundOrder.file 0) ⟨structA, structB, false⟩ := by decide +kernel

theorem runUnambiguous_singleton {order : RunOrder} {inputs : PairInputs}
    (h : FileUnambiguous env (order.file 0) inputs) : RunUnambiguous env order [inputs] := by
  intro i inputs' hi
  cases i with
  | zero => exact Option.some.inj hi ▸ h
  | succ i => simp at hi

/-- One renamed container has one rename for what is below it. -/
theorem semanticChanges_lossless_structB :
    (semanticChanges lengthEnv foundOrder [⟨structA, structB, false⟩]).Perm
      (semanticChanges lengthEnv reversedOrder [⟨structA, structB, false⟩]) := by
  have hroot := belowRoot_singleton false belowRoot_structA belowRoot_structB
  have hall := semanticChanges_lossless lengthEnv foundOrder [⟨structA, structB, false⟩] hroot
  have hperm := hall.2.2.2.1
  exact hperm (runUnambiguous_singleton fileUnambiguous_structB) reversedOrder

theorem length_semanticChanges (env : PairingEnv) (order : RunOrder) (files : List PairInputs) :
    (semanticChanges env order files).length =
      (unsortedChanges order.files (filePairings env order files)).length :=
  (perm_finishFiles order.files (filePairings env order files)).length_eq

/-- The renames of `A` and of its method both match the nested function. The first one in hash
order decides whether it is matched or moved. -/
theorem ambiguous_round_depends_on_order : ¬∀ (env : PairingEnv) (order order' : RunOrder)
    (files : List PairInputs),
    (∀ inputs ∈ files, ∀ x : DiffSide, (x.ofInputs inputs).BelowRoot env) →
      (semanticChanges env order files).Perm (semanticChanges env order' files) := by
  intro h
  have hlen := (h lengthEnv foundOrder reversedOrder [⟨structA, structBMethodY, false⟩]
    (belowRoot_singleton false belowRoot_structA belowRoot_structBMethodY)).length_eq
  rw [length_semanticChanges, length_semanticChanges] at hlen
  have hunsorted : (unsortedChanges foundOrder.files
        (filePairings lengthEnv foundOrder [⟨structA, structBMethodY, false⟩])).length ≠
      (unsortedChanges reversedOrder.files
        (filePairings lengthEnv reversedOrder [⟨structA, structBMethodY, false⟩])).length := by
    decide +kernel
  exact hunsorted hlen

end CodeMoniker
