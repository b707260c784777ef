import CodeMoniker.LastWriter
import CodeMoniker.ReceiverChains

/-!
# The rounds of the receiver chains

What decides a call leaves no pending decision (`decides_of_decideByStatus`), so a round that goes on
shortens the list of pending calls.

A pending call fails with every status that its receiver comes to have. The statuses of a round may
differ from those that the decisions give when they are collected anew, since two decisions can be
about one reference. But a status that is collected is then one that the call was tried with
(`Tried`), and so the last round leaves no call that the final decisions would decide.
-/

namespace CodeMoniker

open List Option ByteCodec FuelLoops LastWriter

/-! ## What decides a call -/

/-- The outcome is not pending, and an external one names its target. -/
def ReferenceOutcome.Settled : ReferenceOutcome → Prop
  | .candidate .weakNameMatch _ | .unknown .noCandidate | .unknown .incompleteExtractorMetadata
  | .external _ none => False
  | _ => True

/-- The decision is one on the call, and leaves nothing pending. -/
structure MethodCallReference.Decides (call : MethodCallReference) (d : EvidencedDecision) :
    Prop where
  position : d.referenceIdx = call.referenceIdx
  settled : d.outcome.Settled

theorem MethodCallReference.decides_decisionWith (call : MethodCallReference)
    {outcome : ReferenceOutcome} (h : outcome.Settled) :
    call.Decides (call.decisionWith outcome) := ⟨rfl, h⟩

theorem EvidencedDecision.not_pending_of_settled {d : EvidencedDecision}
    (h : d.outcome.Settled) : d.refinementPendingReferenceIdx = none := by
  unfold ReferenceOutcome.Settled at h
  unfold EvidencedDecision.refinementPendingReferenceIdx
  split
  · next heq => simp [heq] at h
  · next heq => simp [heq] at h
  · next heq => simp [heq] at h
  · rfl

theorem settled_resolved {x : ResolutionDecision} (hevidence : x.evidence = .typeConstraint)
    (hcard : x.targets.card = 1) : (ReferenceOutcome.resolved x).Settled := by
  have hreason : x.candidateReason = none := by
    simp [ResolutionDecision.candidateReason, hevidence, hcard]
  rw [ReferenceOutcome.resolved, if_neg (by omega), hreason]
  trivial

theorem card_of_resolveByName {t : MethodTable} {owner : Moniker} {callName : String}
    {callArity : Option ℕ} {targets : SymbolSet}
    (h : t.resolveByName owner callName callArity = some targets) : targets.card = 1 := by
  unfold MethodTable.resolveByName at h
  split at h
  all_goals
    obtain ⟨found, -, hfound⟩ := bind_eq_some_iff.mp h
    split at hfound
    · obtain rfl := some.inj hfound
      rfl
    · cases hfound

open MethodCallReference

namespace LinkageRefiner

variable {l : LinkageRefiner} {tables : ReceiverFieldTables} {call : MethodCallReference}
  {d : EvidencedDecision}

theorem card_of_resolvedMethodTargets {owner : Moniker} {callName : String}
    {callArity : Option ℕ} {targets : SymbolSet}
    (h : l.resolvedMethodTargets owner callName callArity = some (some targets)) :
    targets.card = 1 := by
  obtain ⟨target, -, htargets⟩ := map_eq_some_iff.mp h
  split at htargets
  · obtain rfl := some.inj htargets
    rfl
  · exact card_of_resolveByName htargets

theorem decides_of_methodThroughSupers {seen : Finset Moniker} {stack : List Moniker}
    (h : l.methodThroughSupers tables call seen stack = some (some d)) : call.Decides d := by
  fun_induction methodThroughSupers l tables call seen stack with
  | case1 => simp at h
  | case2 _ _ _ _ ih => exact ih h
  | case3 seen current stack _ ih =>
    obtain ⟨found, hfound, h⟩ := bind_eq_some_iff.mp h
    cases found with
    | some targets =>
      obtain ⟨permitted, -, hd⟩ := bind_eq_some_iff.mp h
      have hd := some.inj hd
      split_ifs at hd
      obtain rfl := some.inj hd
      exact call.decides_decisionWith (settled_resolved rfl (card_of_resolvedMethodTargets hfound))
    | none =>
      dsimp only at h
      split_ifs at h
      · obtain ⟨target, -, hd⟩ := bind_eq_some_iff.mp h
        obtain rfl := some.inj (some.inj hd)
        exact call.decides_decisionWith trivial
      · exact ih h

theorem decides_of_typedReceiverDecision {ty : Moniker}
    (h : l.typedReceiverDecision tables ty call = some (some d)) : call.Decides d := by
  unfold typedReceiverDecision at h
  split at h
  · cases h
  · exact decides_of_methodThroughSupers h

theorem settled_of_outcome {x : TypesDecision} {outcome : ReferenceOutcome}
    (h : x.outcome = some outcome) : outcome.Settled := by
  unfold TypesDecision.outcome at h
  split_ifs at h with hopen htargets hcard
  · obtain rfl := some.inj h
    trivial
  · obtain rfl := some.inj h
    exact settled_resolved rfl hcard
  · obtain rfl := some.inj h
    trivial
  · obtain ⟨external, -, rfl⟩ := map_eq_some_iff.mp h
    trivial

theorem decides_of_typedReceiverTypesDecision {types : MonikerTypeSet}
    (h : l.typedReceiverTypesDecision tables types call = some (some d)) : call.Decides d := by
  obtain ⟨x, -, hx⟩ := bind_eq_some_iff.mp h
  obtain ⟨outcome, houtcome, rfl⟩ := map_eq_some_iff.mp (some.inj hx)
  exact call.decides_decisionWith (settled_of_outcome houtcome)

/-- Whatever the status of the receiver, what decides the call leaves nothing pending. -/
theorem decides_of_decideByStatus {returnTypes : AList fun _ : Moniker => MonikerTypeSet}
    {status : ReferenceStatus}
    (h : l.decideByStatus tables returnTypes call status = some (some d)) : call.Decides d := by
  cases status with
  | resolved symbol =>
    obtain ⟨callable, -, h⟩ := bind_eq_some_iff.mp h
    cases callable with
    | none => cases h
    | some callable =>
      dsimp only at h
      split_ifs at h
      · exact decides_of_typedReceiverDecision h
      · split at h
        · cases h
        · exact decides_of_typedReceiverTypesDecision h
  | external origin target =>
    rw [decideByStatus] at h
    split at h
    · cases h
    · obtain ⟨owner, -, hd⟩ := map_eq_some_iff.mp h
      obtain rfl := some.inj hd
      exact call.decides_decisionWith trivial

/-! ## One round -/

variable {references : List IndexedReference} {context : ChainContext} {s next : ChainState}

/-- The status that a decision brings. -/
def statusOf (l : LinkageRefiner) (references : List IndexedReference) (d : EvidencedDecision) :
    Option ReferenceStatus :=
  (l.referenceStatus references d).join

variable {referenceIdx : ℕ}

theorem statusOf_of_pending (h : d.refinementPendingReferenceIdx = some referenceIdx) :
    l.statusOf references d = none := by
  unfold EvidencedDecision.refinementPendingReferenceIdx at h
  unfold statusOf referenceStatus
  split at h
  · next heq => simp [heq]
  · next heq => simp [heq]
  · next heq => simp [heq]
  · cases h

theorem referenceIdx_of_pending (h : d.refinementPendingReferenceIdx = some referenceIdx) :
    d.referenceIdx = referenceIdx := by
  unfold EvidencedDecision.refinementPendingReferenceIdx at h
  split at h
  all_goals first | exact some.inj h | cases h

theorem referenceStatus_of_settled (h : d.outcome.Settled) :
    l.referenceStatus references d = some (l.statusOf references d) := by
  unfold statusOf referenceStatus
  split
  · rfl
  · rfl
  · next heq => simp [heq, ReferenceOutcome.Settled] at h
  · rfl

/-- The round puts `d` in at position `i`. -/
structure PutsIn (l : LinkageRefiner) (tables : ReceiverFieldTables)
    (references : List IndexedReference) (context : ChainContext) (s : ChainState) (i : ℕ)
    (d : EvidencedDecision) : Prop where
  mem : i ∈ s.pending
  found : l.replacement tables references context s i = some (some (i, d))

theorem replacement_eq_some {i j : ℕ}
    (h : l.replacement tables references context s i = some (some (j, d))) :
    j = i ∧ ∃ old referenceIdx r, s.decisions[i]? = some old ∧
      old.refinementPendingReferenceIdx = some referenceIdx ∧ references[referenceIdx]? = some r ∧
      l.resolveReceiverChain tables { context with statuses := s.statuses } referenceIdx r =
        some (some d) := by
  obtain ⟨old, hold, h⟩ := bind_eq_some_iff.mp h
  cases hpending : old.refinementPendingReferenceIdx with
  | none =>
    rw [hpending] at h
    cases h
  | some referenceIdx =>
    rw [hpending] at h
    obtain ⟨r, hr, h⟩ := bind_eq_some_iff.mp h
    obtain ⟨found, hfound, h⟩ := bind_eq_some_iff.mp h
    obtain ⟨d', rfl, hd'⟩ := map_eq_some_iff.mp (some.inj h)
    obtain ⟨rfl, rfl⟩ := Prod.mk.inj hd'
    exact ⟨rfl, old, referenceIdx, r, hold, hpending, hr, hfound⟩

theorem decides_of_resolveReceiverChain {r : IndexedReference}
    (h : l.resolveReceiverChain tables context referenceIdx r = some (some d)) :
    ∃ call, new referenceIdx r = some call ∧ call.Decides d := by
  unfold resolveReceiverChain at h
  split at h
  · next call status hcall _ => exact ⟨call, hcall, decides_of_decideByStatus h⟩
  · cases h

theorem eq_of_new {r : IndexedReference} (h : new referenceIdx r = some call) :
    call.referenceIdx = referenceIdx ∧ call.reference = r := by
  unfold new at h
  split_ifs at h
  obtain ⟨callName, -, rfl⟩ := map_eq_some_iff.mp h
  exact ⟨rfl, rfl⟩

variable {i : ℕ}

/-- The decision that is put in decides a pending call. -/
theorem PutsIn.decides (h : PutsIn l tables references context s i d) :
    ∃ old call r, s.decisions[i]? = some old ∧
      old.refinementPendingReferenceIdx = some d.referenceIdx ∧
      references[d.referenceIdx]? = some r ∧ new d.referenceIdx r = some call ∧ call.Decides d ∧
      l.resolveReceiverChain tables { context with statuses := s.statuses } d.referenceIdx r =
        some (some d) := by
  obtain ⟨-, old, referenceIdx, r, hold, hpending, hr, hfound⟩ := replacement_eq_some h.found
  obtain ⟨call, hcall, hdecides⟩ := decides_of_resolveReceiverChain hfound
  obtain rfl : d.referenceIdx = referenceIdx := hdecides.position.trans (eq_of_new hcall).1
  exact ⟨old, call, r, hold, hpending, hr, hcall, hdecides, hfound⟩

theorem PutsIn.settled (h : PutsIn l tables references context s i d) : d.outcome.Settled := by
  obtain ⟨_, _, _, _, _, _, _, hdecides, _⟩ := h.decides
  exact hdecides.settled

/-- What is put in depends on the reference only. -/
theorem PutsIn.unique {i j : ℕ} {e : EvidencedDecision}
    (h : PutsIn l tables references context s i d) (h' : PutsIn l tables references context s j e)
    (heq : d.referenceIdx = e.referenceIdx) : d = e := by
  obtain ⟨_, _, r, _, _, hr, _, _, hd⟩ := h.decides
  obtain ⟨_, _, r', _, _, hr', _, _, he⟩ := h'.decides
  rw [heq] at hr hd
  obtain rfl := some.inj (hr.symm.trans hr')
  exact some.inj (some.inj (hd.symm.trans he))

/-- `replace` where it does not read a reference that is not there. -/
def replaced (l : LinkageRefiner) (references : List IndexedReference) (s : ChainState)
    (x : ℕ × EvidencedDecision) : ChainState :=
  { s with
    decisions := s.decisions.set x.1 x.2
    statuses := insertStatus s.statuses x.2.referenceIdx (l.statusOf references x.2) }

theorem foldlM_replace : ∀ {xs : List (ℕ × EvidencedDecision)} {s : ChainState},
    (∀ x ∈ xs, x.2.outcome.Settled) →
    xs.foldlM (l.replace references) s = some (xs.foldl (l.replaced references) s)
  | [], _, _ => rfl
  | x :: xs, s, h => by
    have hx : l.replace references s x = some (l.replaced references s x) := by
      rw [replace, referenceStatus_of_settled (h x mem_cons_self)]
      rfl
    rw [foldlM_cons, hx, foldl_cons]
    exact foldlM_replace fun y hy => h y (mem_cons_of_mem x hy)

theorem getElem?_foldl_replaced : ∀ {xs : List (ℕ × EvidencedDecision)} {s : ChainState},
    (∀ x ∈ xs, x.1 ≠ i) → (xs.foldl (l.replaced references) s).decisions[i]? = s.decisions[i]?
  | [], _, _ => rfl
  | x :: xs, s, h => by
    rw [foldl_cons, getElem?_foldl_replaced fun y hy => h y (mem_cons_of_mem x hy)]
    exact getElem?_set_ne (h x mem_cons_self)

/-- A position that only `d` is put in at, with `d` there already or still to come. -/
theorem getElem?_foldl_replaced_of_mem :
    ∀ {xs : List (ℕ × EvidencedDecision)} {s : ChainState}, i < s.decisions.length →
    (∀ x ∈ xs, x.1 = i → x.2 = d) → (s.decisions[i]? = some d ∨ ∃ x ∈ xs, x.1 = i) →
    (xs.foldl (l.replaced references) s).decisions[i]? = some d
  | [], _, _, _, h => h.resolve_right (by simp)
  | x :: xs, s, hi, hxs, h => by
    have hlt : i < (l.replaced references s x).decisions.length := by
      rwa [replaced, length_set]
    rw [foldl_cons]
    refine getElem?_foldl_replaced_of_mem hlt (fun y hy => hxs y (mem_cons_of_mem x hy)) ?_
    by_cases hx : x.1 = i
    · left
      rw [replaced, hx, hxs x mem_cons_self hx]
      exact getElem?_set_self hi
    · rcases h with h | ⟨y, hy, hyi⟩
      · left
        rw [replaced, getElem?_set_ne hx]
        exact h
      · rcases mem_cons.mp hy with rfl | hy
        · exact absurd hyi hx
        · exact Or.inr ⟨y, hy, hyi⟩

theorem lookup_insertStatus {statuses : AList fun _ : ℕ => ReferenceStatus} {referenceIdx x : ℕ}
    {status : Option ReferenceStatus} : (insertStatus statuses referenceIdx status).lookup x =
      (if referenceIdx = x then status else none).or (statuses.lookup x) := by
  cases status with
  | none => simp [insertStatus]
  | some status =>
    rw [insertStatus]
    split_ifs with hx
    · rw [hx, AList.lookup_insert, some_or]
    · rw [AList.lookup_insert_ne (Ne.symm hx), none_or]

/-- A reference keeps its status where nothing that is put in brings one. -/
theorem lookup_foldl_replaced {x : ℕ} : ∀ {xs : List (ℕ × EvidencedDecision)} {s : ChainState},
    (∀ y ∈ xs, y.2.referenceIdx = x → l.statusOf references y.2 = none) →
    (xs.foldl (l.replaced references) s).statuses.lookup x = s.statuses.lookup x
  | [], _, _ => rfl
  | y :: xs, s, h => by
    rw [foldl_cons, lookup_foldl_replaced fun z hz => h z (mem_cons_of_mem y hz)]
    rw [replaced, lookup_insertStatus]
    split_ifs with hx
    · rw [h y mem_cons_self hx, none_or]
    · rfl

theorem lookup_foldl_replaced_of_mem {x : ℕ} {status : ReferenceStatus} :
    ∀ {xs : List (ℕ × EvidencedDecision)} {s : ChainState},
    (∀ y ∈ xs, y.2.referenceIdx = x → l.statusOf references y.2 = some status) →
    (s.statuses.lookup x = some status ∨ ∃ y ∈ xs, y.2.referenceIdx = x) →
    (xs.foldl (l.replaced references) s).statuses.lookup x = some status
  | [], _, _, h => h.resolve_right (by simp)
  | y :: xs, s, hxs, h => by
    rw [foldl_cons]
    refine lookup_foldl_replaced_of_mem (fun z hz => hxs z (mem_cons_of_mem y hz)) ?_
    by_cases hy : y.2.referenceIdx = x
    · left
      rw [replaced, lookup_insertStatus, if_pos hy, hxs y mem_cons_self hy, some_or]
    · rcases h with h | ⟨z, hz, hzx⟩
      · left
        rw [replaced, lookup_insertStatus, if_neg hy, none_or, h]
      · rcases mem_cons.mp hz with rfl | hz
        · exact absurd hzx hy
        · exact Or.inr ⟨z, hz, hzx⟩

/-- What a round that goes on does. -/
structure GoesOn (l : LinkageRefiner) (tables : ReceiverFieldTables)
    (references : List IndexedReference) (context : ChainContext) (s next : ChainState) : Prop where
  tried : ∀ i ∈ s.pending, (l.replacement tables references context s i).isSome
  progress : ∃ i d, PutsIn l tables references context s i d
  put : ∀ i d, PutsIn l tables references context s i d → next.decisions[i]? = some d
  kept : ∀ i, (∀ d, ¬PutsIn l tables references context s i d) →
    next.decisions[i]? = s.decisions[i]?
  brought : ∀ i d status, PutsIn l tables references context s i d →
    l.statusOf references d = some status → next.statuses.lookup d.referenceIdx = some status
  stays : ∀ x, (∀ i d, PutsIn l tables references context s i d → d.referenceIdx = x →
    l.statusOf references d = none) → next.statuses.lookup x = s.statuses.lookup x
  pending : next.pending = s.pending.filter (stillPending next.decisions)

theorem mapM_eq_some {α β : Type} {f : α → Option β} : ∀ {l : List α} {ys : List β},
    l.mapM f = some ys → (∀ a ∈ l, (f a).isSome) ∧ ∀ y, y ∈ ys ↔ ∃ a ∈ l, f a = some y
  | [], ys, h => by
    obtain rfl := some.inj h
    simp
  | a :: l, ys, h => by
    rw [mapM_cons] at h
    obtain ⟨b, hb, h⟩ := bind_eq_some_iff.mp h
    obtain ⟨rest, hrest, h⟩ := bind_eq_some_iff.mp h
    obtain rfl := some.inj h
    obtain ⟨hsome, hmem⟩ := mapM_eq_some hrest
    refine ⟨forall_mem_cons.mpr ⟨by rw [hb]; rfl, hsome⟩, fun y => ?_⟩
    rw [mem_cons, hmem, exists_mem_cons_iff, hb, Option.some.injEq, eq_comm (a := y)]

theorem mem_reduceOption {found : List (Option (ℕ × EvidencedDecision))}
    (h : s.pending.mapM (l.replacement tables references context s) = some found)
    (x : ℕ × EvidencedDecision) :
    x ∈ found.reduceOption ↔ PutsIn l tables references context s x.1 x.2 := by
  rw [reduceOption_mem_iff, (mapM_eq_some h).2]
  constructor
  · rintro ⟨i, hi, hfound⟩
    obtain ⟨rfl, -⟩ := replacement_eq_some hfound
    exact ⟨hi, hfound⟩
  · exact fun hputs => ⟨x.1, hputs.mem, hputs.found⟩

theorem goesOn_of_chainRound (h : l.chainRound tables references context s = some (some next)) :
    GoesOn l tables references context s next := by
  obtain ⟨found, hfound, h⟩ := bind_eq_some_iff.mp h
  have hmem := mem_reduceOption hfound
  dsimp only at h
  split_ifs at h with hempty
  · cases h
  have hfold : found.reduceOption.foldlM (l.replace references) s =
      some (found.reduceOption.foldl (l.replaced references) s) :=
    foldlM_replace fun x hx => ((hmem x).mp hx).settled
  rw [hfold] at h
  obtain rfl := some.inj (some.inj h)
  refine ⟨(mapM_eq_some hfound).1, ?_, fun i d hputs => ?_, fun i hkept => ?_,
    fun i d status hputs hstatus => ?_, fun x hstays => ?_, rfl⟩
  · obtain ⟨x, hx⟩ := exists_mem_of_ne_nil _ hempty
    exact ⟨x.1, x.2, (hmem x).mp hx⟩
  · obtain ⟨_, _, _, hold, _⟩ := hputs.decides
    refine getElem?_foldl_replaced_of_mem (List.getElem?_eq_some_iff.mp hold).1 (fun x hx hxi => ?_)
      (Or.inr ⟨(i, d), (hmem (i, d)).mpr hputs, rfl⟩)
    have hfound' := ((hmem x).mp hx).found
    rw [hxi, hputs.found] at hfound'
    exact (Prod.mk.inj (some.inj (some.inj hfound'))).2.symm
  · refine getElem?_foldl_replaced fun x hx hxi => hkept x.2 ?_
    exact hxi ▸ (hmem x).mp hx
  · refine lookup_foldl_replaced_of_mem (fun x hx hxd => ?_)
      (Or.inr ⟨(i, d), (hmem (i, d)).mpr hputs, rfl⟩)
    rw [((hmem x).mp hx).unique hputs hxd, hstatus]
  · exact lookup_foldl_replaced fun y hy hyx => hstays y.1 y.2 ((hmem y).mp hy) hyx

theorem failed_of_chainRound (h : l.chainRound tables references context s = some none) :
    ∀ i ∈ s.pending, l.replacement tables references context s i = some none := by
  obtain ⟨found, hfound, h⟩ := bind_eq_some_iff.mp h
  have hmem := mem_reduceOption hfound
  dsimp only at h
  split_ifs at h with hempty
  · intro i hi
    obtain ⟨x, hx⟩ := isSome_iff_exists.mp ((mapM_eq_some hfound).1 i hi)
    cases x with
    | none => exact hx
    | some x =>
      obtain ⟨rfl, -⟩ := replacement_eq_some hx
      have hputs := (hmem x).mpr ⟨hi, hx⟩
      rw [hempty] at hputs
      exact absurd hputs not_mem_nil
  · obtain ⟨_, -, h⟩ := bind_eq_some_iff.mp h
    cases h

theorem not_stillPending_of_settled {decisions : List EvidencedDecision}
    (hd : decisions[i]? = some d) (h : d.refinementPendingReferenceIdx = none) :
    stillPending decisions i = false := by
  rw [stillPending, hd, bind_some, h]
  rfl

theorem PutsIn.not_pending (h : PutsIn l tables references context s i d) :
    d.refinementPendingReferenceIdx = none := d.not_pending_of_settled h.settled

theorem GoesOn.length_lt (h : GoesOn l tables references context s next) :
    next.pending.length < s.pending.length := by
  obtain ⟨i, d, hputs⟩ := h.progress
  rw [h.pending]
  refine length_filter_lt_length_iff_exists.mpr ⟨i, hputs.mem, ?_⟩
  rw [not_stillPending_of_settled (h.put i d hputs) hputs.not_pending]
  exact Bool.false_ne_true

/-- A position that a round leaves alone, or a pending one that it decides. -/
theorem GoesOn.cases (h : GoesOn l tables references context s next) (i : ℕ) :
    (∃ d, PutsIn l tables references context s i d) ∨
      (∀ d, ¬PutsIn l tables references context s i d) ∧ next.decisions[i]? = s.decisions[i]? := by
  by_cases hput : ∃ d, PutsIn l tables references context s i d
  · exact Or.inl hput
  · exact Or.inr ⟨not_exists.mp hput, h.kept i (not_exists.mp hput)⟩

/-! ## Collected statuses -/

/-- The status that the decision at a position brings to `x`. -/
def statusAt (l : LinkageRefiner) (references : List IndexedReference)
    (decisions : List EvidencedDecision) (x i : ℕ) : Option ReferenceStatus :=
  decisions[i]?.bind fun d => if d.referenceIdx = x then l.statusOf references d else none

def collected (l : LinkageRefiner) (references : List IndexedReference)
    (decisions : List EvidencedDecision) (x : ℕ) : Option ReferenceStatus :=
  lastSome (l.statusAt references decisions x) decisions.length

theorem lastSome_congr {β : Type} {values values' : ℕ → Option β} : ∀ {n : ℕ},
    (∀ i < n, values i = values' i) → lastSome values n = lastSome values' n
  | 0, _ => rfl
  | n + 1, h => by
    rw [lastSome, lastSome, h n (by omega), lastSome_congr fun i hi => h i (by omega)]

theorem collected_concat (decisions : List EvidencedDecision) (x : ℕ) :
    l.collected references (decisions ++ [d]) x =
      (if d.referenceIdx = x then l.statusOf references d else none).or
        (l.collected references decisions x) := by
  have hlast : l.statusAt references (decisions ++ [d]) x decisions.length =
      if d.referenceIdx = x then l.statusOf references d else none := by
    rw [statusAt, getElem?_concat_length]
    rfl
  rw [collected, length_append, length_singleton, lastSome, hlast]
  congr 1
  refine lastSome_congr fun i hi => ?_
  rw [statusAt, statusAt, getElem?_append_left hi]

variable {decisions : List EvidencedDecision}

theorem lookup_referenceStatuses {wanted : List ℕ} {statuses : AList fun _ : ℕ => ReferenceStatus}
    (h : l.referenceStatuses decisions references wanted = some statuses) {x : ℕ}
    (hx : x ∈ wanted) : statuses.lookup x = l.collected references decisions x := by
  induction decisions using reverseRecOn generalizing statuses with
  | nil =>
    obtain rfl := some.inj h
    rfl
  | append_singleton decisions d ih =>
    rw [referenceStatuses, foldlM_append] at h
    obtain ⟨before, hbefore, h⟩ := bind_eq_some_iff.mp h
    rw [foldlM_cons, bind_eq_bind] at h
    obtain ⟨after, hafter, h⟩ := bind_eq_some_iff.mp h
    obtain rfl := some.inj h
    rw [collected_concat, ← ih hbefore]
    split_ifs at hafter with hwanted
    · obtain ⟨status, hstatus, rfl⟩ := map_eq_some_iff.mp hafter
      have hof : l.statusOf references d = status := by
        rw [statusOf, hstatus]
        rfl
      rw [lookup_insertStatus, hof]
    · obtain rfl := some.inj hafter
      have hne : d.referenceIdx ≠ x := fun heq => hwanted (heq ▸ hx)
      rw [if_neg hne, none_or]

theorem statusAt_eq_none {x i : ℕ}
    (hd : decisions[i]? = some d) (h : d.referenceIdx = x → l.statusOf references d = none) :
    l.statusAt references decisions x i = none := by
  rw [statusAt, hd, bind_some]
  split_ifs with hx
  · exact h hx
  · rfl

/-- What a decision is put in for had no status. -/
theorem PutsIn.statusAt_eq_none (h : PutsIn l tables references context s i d) (x : ℕ) :
    l.statusAt references s.decisions x i = none := by
  obtain ⟨old, _, _, hold, hpending, _⟩ := h.decides
  exact LinkageRefiner.statusAt_eq_none hold fun _ => statusOf_of_pending hpending

section

variable (h : GoesOn l tables references context s next)

include h

theorem GoesOn.length_eq : next.decisions.length = s.decisions.length := by
  refine le_antisymm (not_lt.mp fun hlt => ?_) (not_lt.mp fun hlt => ?_)
  · have hnone : s.decisions[s.decisions.length]? = none := getElem?_eq_none le_rfl
    rcases h.cases s.decisions.length with ⟨d, hputs⟩ | ⟨-, heq⟩
    · obtain ⟨old, _, _, hold, _⟩ := hputs.decides
      rw [hnone] at hold
      cases hold
    · rw [hnone] at heq
      exact absurd (getElem?_eq_none_iff.mp heq) (not_le.mpr hlt)
  · have hnone : next.decisions[next.decisions.length]? = none := getElem?_eq_none le_rfl
    rcases h.cases next.decisions.length with ⟨d, hputs⟩ | ⟨-, heq⟩
    · rw [h.put _ d hputs] at hnone
      cases hnone
    · rw [hnone] at heq
      exact absurd (getElem?_eq_none_iff.mp heq.symm) (not_le.mpr hlt)

theorem GoesOn.statusAt_cases (x i : ℕ) :
    (∃ d, PutsIn l tables references context s i d ∧ d.referenceIdx = x ∧
        l.statusAt references next.decisions x i = l.statusOf references d) ∨
      l.statusAt references next.decisions x i = l.statusAt references s.decisions x i := by
  rcases h.cases i with ⟨d, hputs⟩ | ⟨-, heq⟩
  · by_cases hx : d.referenceIdx = x
    · left
      refine ⟨d, hputs, hx, ?_⟩
      rw [statusAt, h.put i d hputs, bind_some, if_pos hx]
    · right
      rw [hputs.statusAt_eq_none]
      exact LinkageRefiner.statusAt_eq_none (h.put i d hputs) fun heq => absurd heq hx
  · right
    rw [statusAt, statusAt, heq]

/-- The collected status of a reference that no decision with a status is put in for. -/
theorem GoesOn.collected_eq {x : ℕ}
    (hstays : ∀ i d, PutsIn l tables references context s i d → d.referenceIdx = x →
      l.statusOf references d = none) :
    l.collected references next.decisions x = l.collected references s.decisions x := by
  rw [collected, collected, h.length_eq]
  refine lastSome_congr fun i _ => ?_
  rcases h.statusAt_cases x i with ⟨d, hputs, hx, hstatus⟩ | heq
  · rw [hstatus, hstays i d hputs hx, hputs.statusAt_eq_none]
  · exact heq

/-- Otherwise it is the status that is put in, unless a later decision had one. -/
theorem GoesOn.collected_cases {x : ℕ} {status new : ReferenceStatus}
    (hnew : ∀ i d, PutsIn l tables references context s i d → d.referenceIdx = x →
      l.statusOf references d = some new)
    (hstatus : l.collected references next.decisions x = some status) :
    status = new ∨ l.collected references s.decisions x = some status := by
  obtain ⟨i, hi, hlast, hlater⟩ := lastSome_eq_some.mp hstatus
  rcases h.statusAt_cases x i with ⟨d, hputs, hx, hput⟩ | heq
  · left
    rw [hput, hnew i d hputs hx] at hlast
    exact (some.inj hlast).symm
  · right
    rw [h.length_eq] at hi hlater
    refine lastSome_eq_some.mpr ⟨i, hi, heq ▸ hlast, fun j hij hj => ?_⟩
    rcases h.statusAt_cases x j with ⟨d, hputs, -, -⟩ | heq'
    · exact hputs.statusAt_eq_none x
    · exact heq' ▸ hlater j hij hj

end

/-! ## Tried statuses -/

/-- The status of its receiver does not decide the call. -/
def Fails (l : LinkageRefiner) (tables : ReceiverFieldTables) (references : List IndexedReference)
    (context : ChainContext) (referenceIdx : ℕ) (status : ReferenceStatus) : Prop :=
  ∀ r call, references[referenceIdx]? = some r →
    MethodCallReference.new referenceIdx r = some call →
    l.decideByStatus tables context.returnTypes call status = some none

/-- Of each pending call, the status that its receiver is collected with is the one that the next
round tries, or one that has failed. -/
def Tried (l : LinkageRefiner) (tables : ReceiverFieldTables) (references : List IndexedReference)
    (context : ChainContext) (s : ChainState) : Prop :=
  ∀ i ∈ s.pending, ∀ d referenceIdx, s.decisions[i]? = some d →
    d.refinementPendingReferenceIdx = some referenceIdx →
    ∀ x, context.receiverCalls.lookup referenceIdx = some x →
      ∀ status, l.collected references s.decisions x = some status →
        s.statuses.lookup x = some status ∨ Fails l tables references context referenceIdx status

theorem fails_of_replacement {i referenceIdx x : ℕ} {status : ReferenceStatus}
    (h : l.replacement tables references context s i = some none) (hd : s.decisions[i]? = some d)
    (hpending : d.refinementPendingReferenceIdx = some referenceIdx)
    (hx : context.receiverCalls.lookup referenceIdx = some x)
    (hstatus : s.statuses.lookup x = some status) :
    Fails l tables references context referenceIdx status := by
  intro r call hr hcall
  rw [replacement, hd, bind_eq_bind, bind_some, hpending] at h
  dsimp only at h
  rw [hr, bind_eq_bind, bind_some] at h
  obtain ⟨found, hfound, h⟩ := bind_eq_some_iff.mp h
  have hnone : found = none := map_eq_none_iff.mp (some.inj h)
  rw [resolveReceiverChain, hcall] at hfound
  dsimp only at hfound
  rw [hx, bind_some, hstatus, hnone] at hfound
  exact hfound

/-- What is pending after a round was tried in it. -/
theorem GoesOn.replacement_of_pending (h : GoesOn l tables references context s next) {i : ℕ}
    (hi : i ∈ next.pending) : i ∈ s.pending ∧ next.decisions[i]? = s.decisions[i]? ∧
      l.replacement tables references context s i = some none := by
  rw [h.pending] at hi
  obtain ⟨hi, hstill⟩ := mem_filter.mp hi
  rcases h.cases i with ⟨d, hputs⟩ | ⟨hkept, heq⟩
  · rw [not_stillPending_of_settled (h.put i d hputs) hputs.not_pending] at hstill
    cases hstill
  · refine ⟨hi, heq, ?_⟩
    obtain ⟨found, hfound⟩ := isSome_iff_exists.mp (h.tried i hi)
    cases found with
    | none => exact hfound
    | some x =>
      obtain ⟨rfl, -⟩ := replacement_eq_some hfound
      exact absurd ⟨hi, hfound⟩ (hkept x.2)

theorem GoesOn.tried_next (h : GoesOn l tables references context s next)
    (htried : Tried l tables references context s) : Tried l tables references context next := by
  intro i hi d referenceIdx hd hpending x hx status hstatus
  obtain ⟨hi, heq, hfound⟩ := h.replacement_of_pending hi
  rw [heq] at hd
  have hbefore : ∀ status, l.collected references s.decisions x = some status →
      Fails l tables references context referenceIdx status := by
    intro status hstatus
    rcases htried i hi d referenceIdx hd hpending x hx status hstatus with hcurrent | hfails
    · exact fails_of_replacement hfound hd hpending hx hcurrent
    · exact hfails
  by_cases hnew : ∃ j e, PutsIn l tables references context s j e ∧ e.referenceIdx = x ∧
      l.statusOf references e ≠ none
  · obtain ⟨j, e, hputs, rfl, hsome⟩ := hnew
    obtain ⟨new, hnew⟩ := ne_none_iff_exists'.mp hsome
    have hall : ∀ k e', PutsIn l tables references context s k e' →
        e'.referenceIdx = e.referenceIdx → l.statusOf references e' = some new :=
      fun k e' hputs' heq' => (hputs'.unique hputs heq') ▸ hnew
    rcases h.collected_cases hall hstatus with rfl | hold
    · exact Or.inl (h.brought j e _ hputs hnew)
    · exact Or.inr (hbefore status hold)
  · have hstays : ∀ j e, PutsIn l tables references context s j e → e.referenceIdx = x →
        l.statusOf references e = none := by
      intro j e hputs hex
      by_contra hsome
      exact hnew ⟨j, e, hputs, hex, hsome⟩
    rw [h.collected_eq hstays] at hstatus
    exact Or.inr (hbefore status hstatus)

end LinkageRefiner

end CodeMoniker
