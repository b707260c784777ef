import CodeMoniker.ReceiverRounds

/-!
# Runs of the receiver chains

A run of rounds comes to an end after at most as many replacing rounds as there are pending calls
(`ChainRun.rounds_le`). It changes nothing that the receivers and the return types are read from
(`Since`), so what is read anew from the final decisions is what the rounds went by, the statuses
apart. Those have been tried, and no pending call is left that they would decide
(`ChainRun.complete`).

The builder takes every method whose name fits into a moniker (`methodTarget_isSome`).
-/

namespace CodeMoniker

open List Option ByteCodec FuelLoops LastWriter

namespace LinkageRefiner

variable {l : LinkageRefiner} {tables : ReceiverFieldTables} {references : List IndexedReference}
  {context : ChainContext} {s next : ChainState} {d : EvidencedDecision}

/-! ## The whole run -/

/-- The rounds that put something in, and the passes through the loop. -/
inductive ChainRun (l : LinkageRefiner) (tables : ReceiverFieldTables)
    (references : List IndexedReference) (context : ChainContext) :
    ChainState → ℕ → ℕ → ChainState → Prop
  | settled {s : ChainState} (h : l.chainRound tables references context s = some none) :
      ChainRun l tables references context s 0 1 s
  | round {s next t : ChainState} {rounds iterations : ℕ}
      (h : l.chainRound tables references context s = some (some next))
      (hrest : ChainRun l tables references context next rounds iterations t) :
      ChainRun l tables references context s (rounds + 1) (iterations + 1) t

variable {start t : ChainState} {rounds iterations : ℕ}

theorem ChainRun.rounds_le (h : ChainRun l tables references context s rounds iterations t) :
    rounds ≤ s.pending.length ∧ iterations = rounds + 1 := by
  induction h with
  | settled => exact ⟨Nat.zero_le _, rfl⟩
  | round h _ ih =>
    have hlt := (goesOn_of_chainRound h).length_lt
    omega

theorem ChainRun.fuel (h : ChainRun l tables references context s rounds iterations t) :
    ∀ fuel, s.pending.length < fuel →
      l.chainLoop tables references context fuel s = .done t.decisions := by
  induction h with
  | settled h =>
    rintro (_ | fuel) hfuel
    · omega
    · rw [chainLoop, h]
  | round h _ ih =>
    have hlt := (goesOn_of_chainRound h).length_lt
    rintro (_ | fuel) hfuel
    · omega
    · rw [chainLoop, h]
      exact ih fuel (by omega)

/-- The rounds come to an end, or to a panic. -/
theorem chainRun_or_panic (l : LinkageRefiner) (tables : ReceiverFieldTables)
    (references : List IndexedReference) (context : ChainContext) (s : ChainState) :
    (∃ rounds iterations t, ChainRun l tables references context s rounds iterations t) ∨
      ∀ fuel, s.pending.length < fuel → l.chainLoop tables references context fuel s = .panic := by
  induction hn : s.pending.length using Nat.strong_induction_on generalizing s with
  | _ n ih =>
    cases hround : l.chainRound tables references context s with
    | none =>
      right
      rintro (_ | fuel) hfuel
      · omega
      · rw [chainLoop, hround]
    | some found =>
      cases found with
      | none => exact Or.inl ⟨0, 1, s, .settled hround⟩
      | some next =>
        have hlt := (goesOn_of_chainRound hround).length_lt
        rcases ih _ (hn ▸ hlt) next rfl with ⟨rounds, iterations, t, hrun⟩ | hpanic
        · exact Or.inl ⟨rounds + 1, iterations + 1, t, .round hround hrun⟩
        · right
          rintro (_ | fuel) hfuel
          · omega
          · rw [chainLoop, hround]
            exact hpanic fuel (by omega)

/-- What a run keeps from its start : of the decisions only pending ones on calls are replaced, and
they are settled then. -/
structure Since (references : List IndexedReference) (start s : ChainState) : Prop where
  length : s.decisions.length = start.decisions.length
  still : ∀ i ∈ start.pending, stillPending s.decisions i = true → i ∈ s.pending
  replaced : ∀ i : ℕ, s.decisions[i]? = start.decisions[i]? ∨
    ∃ (old d : EvidencedDecision) (r : IndexedReference) (call : MethodCallReference),
      start.decisions[i]? = some old ∧ s.decisions[i]? = some d ∧
      old.refinementPendingReferenceIdx = some d.referenceIdx ∧ d.outcome.Settled ∧
      references[d.referenceIdx]? = some r ∧ MethodCallReference.new d.referenceIdx r = some call

theorem Since.refl (references : List IndexedReference) (s : ChainState) :
    Since references s s := ⟨rfl, fun _ hi _ => hi, fun _ => Or.inl rfl⟩

theorem Since.goesOn (hsince : Since references start s)
    (h : GoesOn l tables references context s next) : Since references start next where
  length := h.length_eq.trans hsince.length
  still i hi hstill := by
    have hkept : stillPending s.decisions i = true := by
      rcases h.cases i with ⟨d, hputs⟩ | ⟨-, heq⟩
      · obtain ⟨old, _, _, hold, hpending, _⟩ := hputs.decides
        rw [stillPending, hold, bind_some, hpending]
        rfl
      · rwa [stillPending, heq] at hstill
    rw [h.pending]
    exact mem_filter.mpr ⟨hsince.still i hi hkept, hstill⟩
  replaced i := by
    rcases h.cases i with ⟨d, hputs⟩ | ⟨-, heq⟩
    · right
      obtain ⟨old, call, r, hold, hpending, hr, hcall, _⟩ := hputs.decides
      refine ⟨old, d, r, call, ?_, h.put i d hputs, hpending, hputs.settled, hr, hcall⟩
      rcases hsince.replaced i with hsame | ⟨_, d', _, _, _, hd', _, hsettled, _⟩
      · rw [← hsame, hold]
      · obtain rfl := some.inj (hd'.symm.trans hold)
        rw [d'.not_pending_of_settled hsettled] at hpending
        cases hpending
    · rw [heq]
      exact hsince.replaced i

theorem ChainRun.since (h : ChainRun l tables references context s rounds iterations t)
    (hsince : Since references start s) (htried : Tried l tables references context s) :
    Since references start t ∧ Tried l tables references context t ∧
      ∀ i ∈ t.pending, l.replacement tables references context t i = some none := by
  induction h with
  | settled h => exact ⟨hsince, htried, failed_of_chainRound h⟩
  | round h _ ih =>
    have hgoes := goesOn_of_chainRound h
    exact ih (hsince.goesOn hgoes) (hgoes.tried_next htried)

/-! ## The context anew -/

theorem mapM_isSome {α β : Type} {f : α → Option β} : ∀ {l : List α},
    (∀ a ∈ l, (f a).isSome) → (l.mapM f).isSome
  | [], _ => rfl
  | a :: l, h => by
    obtain ⟨b, hb⟩ := isSome_iff_exists.mp (h a mem_cons_self)
    obtain ⟨rest, hrest⟩ := isSome_iff_exists.mp
      (mapM_isSome fun a' ha' => h a' (mem_cons_of_mem a ha'))
    rw [mapM_cons, hb, hrest]
    rfl

theorem lookup_foldl_insert_of_ne {r : ℕ} : ∀ {calls : List (ℕ × ℕ)} {index : AList fun _ : ℕ => ℕ},
    (∀ call ∈ calls, call.1 ≠ r) →
    (calls.foldl (fun index call => index.insert call.1 call.2) index).lookup r = index.lookup r
  | [], _, _ => rfl
  | call :: calls, index, h => by
    rw [foldl_cons,
      lookup_foldl_insert_of_ne fun call' hcall' => h call' (mem_cons_of_mem call hcall')]
    exact AList.lookup_insert_ne (h call mem_cons_self).symm

theorem lookup_foldl_insert {r x : ℕ} : ∀ {calls : List (ℕ × ℕ)} {index : AList fun _ : ℕ => ℕ},
    (∀ call ∈ calls, call.1 = r → call.2 = x) →
    (index.lookup r = some x ∨ ∃ call ∈ calls, call.1 = r) →
    (calls.foldl (fun index call => index.insert call.1 call.2) index).lookup r = some x
  | [], _, _, h => h.resolve_right (by simp)
  | call :: calls, index, hcalls, h => by
    rw [foldl_cons]
    refine lookup_foldl_insert (fun c hc => hcalls c (mem_cons_of_mem call hc)) ?_
    by_cases hr : call.1 = r
    · left
      rw [hr, hcalls call mem_cons_self hr, AList.lookup_insert]
    · rcases h with h | ⟨c, hc, hcr⟩
      · left
        rwa [AList.lookup_insert_ne (Ne.symm hr)]
      · rcases mem_cons.mp hc with rfl | hc
        · exact absurd hcr hr
        · exact Or.inr ⟨c, hc, hcr⟩

variable {decisions : List EvidencedDecision}

theorem receiverCall_eq_some {i : ℕ} {call : ℕ × ℕ}
    (h : l.receiverCall decisions i = some (some call)) :
    l.receiverReferenceIdx call.1 = some (some call.2) := by
  obtain ⟨d, -, h⟩ := bind_eq_some_iff.mp h
  split at h
  · cases h
  · obtain ⟨receiver, hreceiver, h⟩ := bind_eq_some_iff.mp h
    obtain ⟨x, rfl, rfl⟩ := map_eq_some_iff.mp (some.inj h)
    exact hreceiver

variable {pending : List ℕ}

/-- The index has the receiver of each pending call, if that has one. -/
theorem lookup_buildReceiverCallIndex {index : AList fun _ : ℕ => ℕ}
    (h : l.buildReceiverCallIndex decisions pending = some index)
    {i referenceIdx : ℕ} (hi : i ∈ pending) (hd : decisions[i]? = some d)
    (hpending : d.refinementPendingReferenceIdx = some referenceIdx) :
    l.receiverReferenceIdx referenceIdx = some (index.lookup referenceIdx) := by
  obtain ⟨calls, hcalls, rfl⟩ := map_eq_some_iff.mp h
  obtain ⟨hsome, hmem⟩ := mapM_eq_some hcalls
  have hcall : l.receiverCall decisions i =
      (l.receiverReferenceIdx referenceIdx).map (·.map (referenceIdx, ·)) := by
    rw [receiverCall, hd, bind_eq_bind, bind_some, hpending]
    dsimp only
    cases hreceiver : l.receiverReferenceIdx referenceIdx with
    | none => simp
    | some receiver => simp
  have hall : ∀ call ∈ calls.reduceOption,
      l.receiverReferenceIdx call.1 = some (some call.2) := by
    intro call hcall
    obtain ⟨j, -, hj⟩ := (hmem _).mp (reduceOption_mem_iff.mp hcall)
    exact receiverCall_eq_some hj
  obtain ⟨receiver, hreceiver⟩ : ∃ receiver, l.receiverReferenceIdx referenceIdx = some receiver := by
    obtain ⟨found, hfound⟩ := isSome_iff_exists.mp (hsome i hi)
    rw [hcall] at hfound
    obtain ⟨receiver, hreceiver, -⟩ := map_eq_some_iff.mp hfound
    exact ⟨receiver, hreceiver⟩
  rw [hreceiver]
  cases receiver with
  | none =>
    rw [lookup_foldl_insert_of_ne, AList.lookup_empty]
    intro call hin heq
    have hfound := hall call hin
    rw [heq, hreceiver] at hfound
    cases hfound
  | some x =>
    have hvalue : ∀ call ∈ calls.reduceOption, call.1 = referenceIdx → call.2 = x := by
      intro call hin heq
      have hfound := hall call hin
      rw [heq, hreceiver] at hfound
      exact (some.inj (some.inj hfound)).symm
    have hin : (referenceIdx, x) ∈ calls.reduceOption := by
      rw [reduceOption_mem_iff, hmem]
      exact ⟨i, hi, by rw [hcall, hreceiver]; rfl⟩
    rw [lookup_foldl_insert hvalue (Or.inr ⟨_, hin, rfl⟩)]

theorem foldlM_congr_getElem? {α β γ : Type} {f : γ → α → Option γ} {g : γ → β → Option γ} :
    ∀ {l : List α} {l' : List β}, l.length = l'.length →
    (∀ (i : ℕ) a b, l[i]? = some a → l'[i]? = some b → ∀ c, f c a = g c b) →
    ∀ c, l.foldlM f c = l'.foldlM g c
  | [], [], _, _, _ => rfl
  | a :: l, b :: l', hlength, h, c => by
    rw [foldlM_cons, foldlM_cons, h 0 a b rfl rfl c]
    refine congrArg _ (funext fun c' => ?_)
    exact foldlM_congr_getElem? (Nat.succ.inj hlength)
      (fun i a' b' ha hb => h (i + 1) a' b' ha hb) c'

theorem collectReturnType_of_ne {out : AList fun _ : Moniker => MonikerTypeSet}
    {r : IndexedReference} (hr : references[d.referenceIdx]? = some r)
    (hkind : r.kind ≠ "returns_type") : l.collectReturnType references out d = some out := by
  rw [collectReturnType, hr, bind_eq_bind, bind_some, if_pos hkind]
  rfl

theorem Since.collectReturnTypes (h : Since references start s) :
    l.collectReturnTypes s.decisions references = l.collectReturnTypes start.decisions references := by
  refine foldlM_congr_getElem? h.length (fun i d old hd hold out => ?_) ∅
  rcases h.replaced i with heq | ⟨old', d', r, call, hold', hd', hpending, -, hr, hcall⟩
  · rw [heq, hold] at hd
    obtain rfl := some.inj hd
    rfl
  · obtain rfl := some.inj (hd.symm.trans hd')
    obtain rfl := some.inj (hold.symm.trans hold')
    have hkind : r.kind ≠ "returns_type" := by
      unfold MethodCallReference.new at hcall
      split_ifs at hcall with hkind
      intro heq
      simp [heq] at hkind
    have hposition := referenceIdx_of_pending hpending
    rw [collectReturnType_of_ne hr hkind, collectReturnType_of_ne (hposition ▸ hr) hkind]

/-- A reference that is there has a status, or none. -/
theorem referenceStatus_isSome {r : IndexedReference} (hr : references[d.referenceIdx]? = some r) :
    (l.referenceStatus references d).isSome := by
  unfold referenceStatus
  split
  all_goals simp [hr]

theorem getElem?_of_collectReturnTypes {types : AList fun _ : Moniker => MonikerTypeSet}
    (h : l.collectReturnTypes decisions references = some types) :
    ∀ d ∈ decisions, ∃ r, references[d.referenceIdx]? = some r := by
  have hfold : ∀ {decisions : List EvidencedDecision} {out},
      (decisions.foldlM (l.collectReturnType references) out).isSome →
      ∀ d ∈ decisions, ∃ r, references[d.referenceIdx]? = some r := by
    intro decisions
    induction decisions with
    | nil => simp
    | cons d decisions ih =>
      intro out h
      rw [foldlM_cons] at h
      obtain ⟨result, hresult⟩ := isSome_iff_exists.mp h
      obtain ⟨out', hout, hrest⟩ := bind_eq_some_iff.mp hresult
      obtain ⟨r, hr, -⟩ := bind_eq_some_iff.mp hout
      exact forall_mem_cons.mpr ⟨⟨r, hr⟩, ih (by rw [hrest]; rfl)⟩
  exact hfold (by rw [← LinkageRefiner.collectReturnTypes, h]; rfl)

theorem referenceStatuses_isSome (wanted : List ℕ)
    (h : ∀ d ∈ decisions, ∃ r, references[d.referenceIdx]? = some r) :
    (l.referenceStatuses decisions references wanted).isSome := by
  refine foldlM_isSome fun d hd statuses => ?_
  obtain ⟨r, hr⟩ := h d hd
  split_ifs
  · rw [isSome_map]
    exact referenceStatus_isSome hr
  · rfl

theorem buildReceiverCallIndex_isSome {decisions decisions' : List EvidencedDecision}
    {pending : List ℕ} {index : AList fun _ : ℕ => ℕ}
    (h : l.buildReceiverCallIndex decisions pending = some index)
    (hsame : ∀ i ∈ pending, decisions'[i]? = decisions[i]? ∨
      ∃ d, decisions'[i]? = some d ∧ d.refinementPendingReferenceIdx = none) :
    (l.buildReceiverCallIndex decisions' pending).isSome := by
  obtain ⟨calls, hcalls, -⟩ := map_eq_some_iff.mp h
  rw [buildReceiverCallIndex, isSome_map]
  refine mapM_isSome fun i hi => ?_
  rcases hsame i hi with heq | ⟨d, hd, hpending⟩
  · have hcall := (mapM_eq_some hcalls).1 i hi
    rwa [receiverCall, ← heq] at hcall
  · rw [receiverCall, hd, bind_eq_bind, bind_some, hpending]
    rfl

theorem chainContext_eq_some (h : l.chainContext decisions references pending = some context) :
    l.buildReceiverCallIndex decisions pending = some context.receiverCalls ∧
      l.referenceStatuses decisions references (context.receiverCalls.entries.map (·.2)) =
        some context.statuses ∧
      l.collectReturnTypes decisions references = some context.returnTypes := by
  obtain ⟨receiverCalls, hcalls, h⟩ := bind_eq_some_iff.mp h
  obtain ⟨statuses, hstatuses, h⟩ := bind_eq_some_iff.mp h
  obtain ⟨returnTypes, htypes, h⟩ := bind_eq_some_iff.mp h
  obtain rfl := some.inj h
  exact ⟨hcalls, hstatuses, htypes⟩

/-- The first round tries the collected statuses. -/
theorem tried_start (h : l.chainContext decisions references pending = some context) :
    Tried l tables references context ⟨decisions, context.statuses, pending⟩ := by
  obtain ⟨-, hstatuses, -⟩ := chainContext_eq_some h
  intro i _ d referenceIdx _ _ x hx status hstatus
  left
  have hwanted : x ∈ context.receiverCalls.entries.map (·.2) :=
    List.mem_map.mpr ⟨⟨referenceIdx, x⟩, AList.mem_lookup_iff.mp hx, rfl⟩
  rw [← hstatus]
  exact lookup_referenceStatuses hstatuses hwanted

/-- No call at the positions is pending that would be decided in the context that these decisions
give. -/
def Complete (l : LinkageRefiner) (tables : ReceiverFieldTables)
    (references : List IndexedReference) (decisions : List EvidencedDecision) (pending : List ℕ) :
    Prop :=
  ∃ context, l.chainContext decisions references pending = some context ∧
    ∀ i ∈ pending, ∀ d referenceIdx r, decisions[i]? = some d →
      d.refinementPendingReferenceIdx = some referenceIdx → references[referenceIdx]? = some r →
      l.resolveReceiverChain tables context referenceIdx r = some none

theorem ChainRun.complete
    (hrun : ChainRun l tables references context ⟨decisions, context.statuses, pending⟩
      rounds iterations t) (hcontext : l.chainContext decisions references pending = some context) :
    Complete l tables references t.decisions pending := by
  obtain ⟨hcalls, -, htypes⟩ := chainContext_eq_some hcontext
  obtain ⟨hsince, htried, hfailed⟩ := hrun.since (.refl references _) (tried_start hcontext)
  have hthere : ∀ d ∈ t.decisions, ∃ r, references[d.referenceIdx]? = some r :=
    getElem?_of_collectReturnTypes (hsince.collectReturnTypes.trans htypes)
  have hsame : ∀ i ∈ pending, t.decisions[i]? = decisions[i]? ∨
      ∃ d, t.decisions[i]? = some d ∧ d.refinementPendingReferenceIdx = none := by
    intro i _
    rcases hsince.replaced i with heq | ⟨_, d, _, _, _, hd, _, hsettled, _⟩
    · exact Or.inl heq
    · exact Or.inr ⟨d, hd, d.not_pending_of_settled hsettled⟩
  obtain ⟨finalCalls, hfinalCalls⟩ := isSome_iff_exists.mp
    (buildReceiverCallIndex_isSome hcalls hsame)
  obtain ⟨finalStatuses, hfinalStatuses⟩ := isSome_iff_exists.mp
    (referenceStatuses_isSome (l := l) (finalCalls.entries.map (·.2)) hthere)
  refine ⟨⟨finalStatuses, finalCalls, context.returnTypes⟩, ?_, ?_⟩
  · rw [chainContext, hfinalCalls, bind_eq_bind, bind_some, hfinalStatuses,
      bind_eq_bind, bind_some, hsince.collectReturnTypes, htypes]
    rfl
  · intro i hi d referenceIdx r hd hpending hr
    have hstill : stillPending t.decisions i = true := by
      rw [stillPending, hd, bind_some, hpending]
      rfl
    have hin := hsince.still i hi hstill
    -- The decision has not changed, so the call has the receiver that it had at the start.
    have hsame : finalCalls.lookup referenceIdx = context.receiverCalls.lookup referenceIdx := by
      have hstart : decisions[i]? = some d := by
        rcases hsince.replaced i with heq | ⟨_, d', _, _, _, hd', _, hsettled, _⟩
        · rw [← hd, heq]
        · obtain rfl := some.inj (hd.symm.trans hd')
          rw [d.not_pending_of_settled hsettled] at hpending
          cases hpending
      have hfinal := lookup_buildReceiverCallIndex hfinalCalls hi hd hpending
      rw [lookup_buildReceiverCallIndex hcalls hi hstart hpending] at hfinal
      exact (some.inj hfinal).symm
    unfold resolveReceiverChain
    split
    · next call status hcall hstatus =>
      obtain ⟨x, hx, hstatus⟩ := bind_eq_some_iff.mp hstatus
      have hwanted : x ∈ finalCalls.entries.map (·.2) :=
        List.mem_map.mpr ⟨⟨referenceIdx, x⟩, AList.mem_lookup_iff.mp hx, rfl⟩
      rw [lookup_referenceStatuses hfinalStatuses hwanted] at hstatus
      have hx' : context.receiverCalls.lookup referenceIdx = some x := hsame ▸ hx
      have hfails : Fails l tables references context referenceIdx status := by
        rcases htried i hin d referenceIdx hd hpending x hx' status hstatus with hcurrent | hfails
        · exact fails_of_replacement (hfailed i hin) hd hpending hx' hcurrent
        · exact hfails
      exact hfails r call hr hcall
    · rfl

/-- A round that goes on replaces a pending decision, and nothing but pending decisions, by ones
that are not pending. -/
structure Replaces (s next : ChainState) : Prop where
  progress : ∃ i ∈ s.pending, stillPending s.decisions i = true ∧ ∃ d, next.decisions[i]? = some d ∧
    d.refinementPendingReferenceIdx = none
  only : ∀ i : ℕ, next.decisions[i]? = s.decisions[i]? ∨
    i ∈ s.pending ∧ stillPending s.decisions i = true ∧ stillPending next.decisions i = false

theorem PutsIn.stillPending {i : ℕ} (h : PutsIn l tables references context s i d) :
    stillPending s.decisions i = true := by
  obtain ⟨old, _, _, hold, hpending, _⟩ := h.decides
  rw [LinkageRefiner.stillPending, hold, bind_some, hpending]
  rfl

theorem GoesOn.replaces (h : GoesOn l tables references context s next) : Replaces s next where
  progress := by
    obtain ⟨i, d, hputs⟩ := h.progress
    exact ⟨i, hputs.mem, hputs.stillPending, d, h.put i d hputs, hputs.not_pending⟩
  only i := by
    rcases h.cases i with ⟨d, hputs⟩ | ⟨-, heq⟩
    · right
      exact ⟨hputs.mem, hputs.stillPending,
        not_stillPending_of_settled (h.put i d hputs) hputs.not_pending⟩
    · exact Or.inl heq

/-- Every round replaces pending decisions or is the last. There are at most as many that replace
some as there are pending calls, and then one more. What is left pending would not be decided by
the final decisions. -/
theorem refineReceiverChains_settles (l : LinkageRefiner) (tables : ReceiverFieldTables)
    (references : List IndexedReference) (decisions : List EvidencedDecision) (pending : List ℕ) :
    (∀ context s next, l.chainRound tables references context s = some (some next) →
      Replaces s next) ∧ ((∀ fuel, pending.length < fuel →
        l.refineReceiverChains tables references decisions pending fuel = .panic) ∨
      pending = [] ∨ ∃ context rounds iterations t,
        l.chainContext decisions references pending = some context ∧
        ChainRun l tables references context ⟨decisions, context.statuses, pending⟩ rounds
          iterations t ∧ rounds ≤ pending.length ∧ iterations = rounds + 1 ∧
        (∀ fuel, pending.length < fuel →
          l.refineReceiverChains tables references decisions pending fuel = .done t.decisions) ∧
        Complete l tables references t.decisions pending) := by
  refine ⟨fun _ _ _ h => (goesOn_of_chainRound h).replaces, ?_⟩
  by_cases hempty : pending = []
  · exact Or.inr (Or.inl hempty)
  cases hcontext : l.chainContext decisions references pending with
  | none =>
    left
    intro fuel _
    rw [refineReceiverChains, if_neg hempty, hcontext]
  | some context =>
    rcases chainRun_or_panic l tables references context ⟨decisions, context.statuses, pending⟩ with
      ⟨rounds, iterations, t, hrun⟩ | hpanic
    · right; right
      obtain ⟨hrounds, hiterations⟩ := hrun.rounds_le
      refine ⟨context, rounds, iterations, t, rfl, hrun, hrounds, hiterations, fun fuel hfuel => ?_,
        hrun.complete hcontext⟩
      rw [refineReceiverChains, if_neg hempty, hcontext]
      exact hrun.fuel fuel hfuel
    · left
      intro fuel hfuel
      rw [refineReceiverChains, if_neg hempty, hcontext]
      exact hpanic fuel hfuel

end LinkageRefiner

/-! ## Methods that fit -/

theorem valid_flatten : ∀ {texts : List Bytes}, (∀ text ∈ texts, Utf8.Valid text) →
    Utf8.Valid texts.flatten
  | [], _ => Utf8.valid_nil
  | text :: _, h =>
    (h text mem_cons_self).append
      (valid_flatten fun other hother => h other (mem_cons_of_mem text hother))

theorem mem_of_mem_intersperse {α : Type} {sep a : α} : ∀ {l : List α},
    a ∈ l.intersperse sep → a = sep ∨ a ∈ l
  | [], h => Or.inr h
  | [_], h => Or.inr h
  | b :: c :: l, h => by
    rw [intersperse_cons_cons, mem_cons, mem_cons] at h
    rcases h with rfl | rfl | h
    · exact Or.inr mem_cons_self
    · exact Or.inl rfl
    · exact (mem_of_mem_intersperse h).imp_right (mem_cons_of_mem b)

theorem valid_methodSegment (callName : String) (callArity : Option ℕ) :
    Utf8.Valid (methodSegment callName callArity) := by
  have hslots : Utf8.Valid ((byteString ",").intercalate
      (List.replicate (callArity.getD 0) (byteString "_"))) := by
    refine valid_flatten fun part hpart => ?_
    rcases mem_of_mem_intersperse hpart with rfl | hpart
    · exact Utf8.valid_encode _
    · rw [eq_of_mem_replicate hpart]
      exact Utf8.valid_encode _
  exact (((Utf8.valid_encode _).append (Utf8.valid_encode _)).append hslots).append
    (Utf8.valid_encode _)

/-- The builder takes a method whose name fits. -/
theorem methodTarget_isSome {callName : String} {callArity : Option ℕ}
    (h : (methodSegment callName callArity).length ≤ maxComponentLen) (owner : Moniker) :
    (methodTarget owner callName callArity).isSome := by
  obtain ⟨project, segs, hp, hs, rfl⟩ := Moniker.exists_parts owner
  have huri : isUriKind (byteString "method") = true := by decide
  have hlen : (byteString "method").length ≤ maxComponentLen := by decide
  have hmethod : Segment.Admitted ⟨byteString "method", methodSegment callName callArity⟩ :=
    ⟨Utf8.valid_encode _, huri, valid_methodSegment callName callArity, hlen, h⟩
  have hall : ∀ s ∈ segs ++ [⟨byteString "method", methodSegment callName callArity⟩],
      s.Admitted := by
    intro s hs'
    rcases mem_append.mp hs' with hs' | hs'
    · exact hs s hs'
    · exact mem_singleton.mp hs' ▸ hmethod
  rw [methodTarget, Moniker.project_ofParts, Moniker.segments_ofParts, tryMoniker_ofParts hp hall]
  rfl

namespace LinkageRefiner

/-! ## One pending call

`f().g()`, where `f` comes from a package. -/

section OneCall

def packageFunction : Moniker :=
  Moniker.ofParts (byteString ".") [⟨byteString "external_pkg", byteString "p"⟩,
    ⟨byteString "function", byteString "f"⟩] admitted_dot (by decide)

def callRecord (kind : String) (stop : UInt32) : RefRecord where
  source := 0
  target := packageFunction
  kind := byteString kind
  position := some (0, stop)
  receiverHint := []
  aliasName := []
  confidence := byteString "external"
  callName := []
  callArity := some 0
  binding := []

def oneCallRefiner : LinkageRefiner where
  material :=
    ⟨[⟨⟨0, "a.py", .python, { CodeGraph.withRoot packageFunction (byteString "module") with
        refs := [callRecord "calls" 3, callRecord "method_call" 7] }⟩, false⟩]⟩
  methods := ⟨∅, ∅, ∅⟩
  candidates := ⟨[], .empty, ∅, ⟨∅, ∅, ∅⟩⟩
  packages := ⟨[]⟩
  sourceGroup _ := none
  manifestDeclaresTarget _ _ := false

def callReference (reference : ℕ) (kind callName : String) : IndexedReference where
  id := ⟨0, reference⟩
  sourceSymbol := ⟨0, 0⟩
  targetIdentity := "code+moniker://./external_pkg:p/function:f"
  kind := kind
  callName := some callName
  callArity := some 0
  confidence := some "external"
  receiver := none
  aliasName := none

def oneCallReferences : List IndexedReference :=
  [callReference 0 "calls" "f", callReference 1 "method_call" "g"]

def oneCallDecisions : List EvidencedDecision :=
  [⟨⟨0, 0⟩, 0, .external .dependency (some packageFunction)⟩, ⟨⟨0, 1⟩, 1, .unknown .noCandidate⟩]

def oneCallContext : ChainContext where
  statuses := (∅ : AList fun _ : ℕ => ReferenceStatus).insert 0 (.external .dependency packageFunction)
  receiverCalls := (∅ : AList fun _ : ℕ => ℕ).insert 1 0
  returnTypes := ∅

theorem chainContext_oneCall :
    oneCallRefiner.chainContext oneCallDecisions oneCallReferences [1] = some oneCallContext := by
  rfl

/-- The call is decided in a first round, and a second one ends the loop. -/
theorem iterations_exceed_pending : ¬∀ (l : LinkageRefiner) (tables : ReceiverFieldTables)
    (references : List IndexedReference) (decisions : List EvidencedDecision) (pending : List ℕ)
    (context : ChainContext) (rounds iterations : ℕ) (t : ChainState),
    l.chainContext decisions references pending = some context →
    ChainRun l tables references context ⟨decisions, context.statuses, pending⟩ rounds
      iterations t → iterations ≤ pending.length := by
  intro hall
  have hname : (methodSegment "g" (some 0)).length ≤ maxComponentLen := by decide
  obtain ⟨target, htarget⟩ := isSome_iff_exists.mp
    (methodTarget_isSome hname packageFunction)
  have howner : callableOwner packageFunction = some packageFunction := by
    unfold callableOwner packageFunction
    rw [Moniker.segments_ofParts]
    exact if_neg (by decide)
  let call : MethodCallReference := ⟨1, callReference 1 "method_call" "g", "g"⟩
  have hdecide : oneCallRefiner.decideByStatus ⟨∅, ∅, ∅⟩ ∅ call
      (.external .dependency packageFunction) =
        some (some ⟨⟨0, 1⟩, 1, .external .dependency (some target)⟩) := by
    rw [decideByStatus, howner]
    exact congrArg (Option.map _) htarget
  have hfound : oneCallRefiner.replacement ⟨∅, ∅, ∅⟩ oneCallReferences oneCallContext
      ⟨oneCallDecisions, oneCallContext.statuses, [1]⟩ 1 =
        some (some (1, ⟨⟨0, 1⟩, 1, .external .dependency (some target)⟩)) :=
    congrArg (fun found => found.bind fun found => some (found.map (1, ·))) hdecide
  have hround : oneCallRefiner.chainRound ⟨∅, ∅, ∅⟩ oneCallReferences oneCallContext
      ⟨oneCallDecisions, oneCallContext.statuses, [1]⟩ =
        some (some ⟨[⟨⟨0, 0⟩, 0, .external .dependency (some packageFunction)⟩,
          ⟨⟨0, 1⟩, 1, .external .dependency (some target)⟩],
          oneCallContext.statuses.insert 1 (.external .dependency target), []⟩) := by
    rw [chainRound, mapM_cons, hfound]
    rfl
  have hrun := ChainRun.round hround (.settled rfl)
  have hle := hall _ _ _ _ _ _ _ _ _ chainContext_oneCall hrun
  exact absurd hle (by decide)

end OneCall

end LinkageRefiner

end CodeMoniker
