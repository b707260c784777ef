import CodeMoniker.IdentityRollups

/-!
# Exact roll-ups

A reference between two symbols that are shown counts as one thing below a scope: within a child,
as an edge between two, into or out of the scope, as unlinked, or as outside (`account`). The loop
of the graph keeps its counters in step with the accounts of the references that it has read
(`Accounted.graphReference`).
-/

namespace CodeMoniker

open List ByteCodec Query

/-! ## Accounts -/

/-- What a reference counts as below a scope. -/
inductive Account (β : Type) where
  | intra (child : β)
  | edge (source target : β)
  | inbound
  | outbound
  | unlinked
  | outside
  /-- An end is not shown. -/
  | unanchored
  deriving DecidableEq

namespace Account

variable {β γ : Type}

def map (f : β → γ) : Account β → Account γ
  | intra child => intra (f child)
  | edge source target => edge (f source) (f target)
  | inbound => inbound
  | outbound => outbound
  | unlinked => unlinked
  | outside => outside
  | unanchored => unanchored

def isIntra : Account β → Bool
  | intra _ => true
  | _ => false

def isEdge : Account β → Bool
  | edge _ _ => true
  | _ => false

/-- The account of a reference with both ends. -/
def ofEnds [DecidableEq β] : Option β → Option β → Account β
  | some a, some b => if a = b then intra a else edge a b
  | some _, none => outbound
  | none, some _ => inbound
  | none, none => outside

/-- An account is one of the six, or none. -/
theorem indicator_eq [DecidableEq β] (x : Account β) : (if x ≠ unanchored then 1 else 0) =
    (if x.isIntra then 1 else 0) + (if x.isEdge then 1 else 0) + (if x = inbound then 1 else 0) +
      (if x = outbound then 1 else 0) + (if x = unlinked then 1 else 0) +
        if x = outside then 1 else 0 := by
  cases x <;> simp [isIntra, isEdge]

theorem map_injective {f : β → γ} (hf : Function.Injective f) : Function.Injective (map f) := by
  intro x y h
  cases x <;> cases y <;> simp_all [map, hf.eq_iff]

theorem ofEnds_map [DecidableEq β] [DecidableEq γ] {f : β → γ} (hf : Function.Injective f)
    (a b : Option β) : ofEnds (a.map f) (b.map f) = (ofEnds a b).map f := by
  cases a with
  | none => cases b <;> rfl
  | some a =>
    cases b with
    | none => rfl
    | some b =>
      simp only [Option.map_some, ofEnds, hf.eq_iff]
      split_ifs <;> rfl

end Account

section Accounts

variable {β : Type} [DecidableEq β] (s : IdentitySnapshot) (child : IndexedSymbol → Option β)

def account (r : ReferenceRecord) : Account β :=
  match s.navigableAnchor r.sourceSymbol with
  | none => .unanchored
  | some source =>
    match s.resolvedReferenceTarget r.id with
    | none => if (child source).isSome then .unlinked else .outside
    | some id =>
      match s.navigableAnchor id with
      | none => .unanchored
      | some target => .ofEnds (child source) (child target)

def accountOf (x : Account β) (refs : List ReferenceRecord) : ℕ :=
  refs.countP fun r => account s child r = x

theorem accountOf_append (x : Account β) (refs : List ReferenceRecord) (r : ReferenceRecord) :
    accountOf s child x (refs ++ [r]) =
      accountOf s child x refs + if account s child r = x then 1 else 0 := by
  rw [accountOf, countP_append, countP_singleton]
  simp only [decide_eq_true_eq]
  rfl

/-- Every reference with both ends shown, or with none to show, has one account. -/
theorem countP_anchored (refs : List ReferenceRecord) :
    refs.countP (fun r => account s child r ≠ .unanchored) =
      refs.countP (fun r => (account s child r).isIntra) +
        refs.countP (fun r => (account s child r).isEdge) + accountOf s child .inbound refs +
          accountOf s child .outbound refs + accountOf s child .unlinked refs +
            accountOf s child .outside refs := by
  induction refs with
  | nil => rfl
  | cons r refs ih =>
    have hone := (account s child r).indicator_eq
    simp only [accountOf, countP_cons, decide_eq_true_eq] at ih ⊢
    omega

theorem account_map {γ : Type} [DecidableEq γ] {f : β → γ} (hf : Function.Injective f)
    (r : ReferenceRecord) :
    account s (fun symbol => (child symbol).map f) r = (account s child r).map f := by
  unfold account
  cases s.navigableAnchor r.sourceSymbol with
  | none => rfl
  | some source =>
    cases s.resolvedReferenceTarget r.id with
    | none =>
      simp only [Option.isSome_map]
      split_ifs <;> rfl
    | some id =>
      dsimp only
      cases s.navigableAnchor id with
      | none => rfl
      | some target => exact Account.ofEnds_map hf _ _

theorem accountOf_map {γ : Type} [DecidableEq γ] {f : β → γ} (hf : Function.Injective f)
    (x : Account β) (refs : List ReferenceRecord) :
    accountOf s (fun symbol => (child symbol).map f) (x.map f) refs = accountOf s child x refs := by
  refine countP_congr fun r _ => ?_
  simp only [account_map s child hf, (Account.map_injective hf).eq_iff]

theorem account_congr {child' : IndexedSymbol → Option β}
    (h : ∀ symbol ∈ s.symbols.iter, symbol.navigable = true → child symbol = child' symbol)
    (r : ReferenceRecord) : account s child r = account s child' r := by
  unfold account
  cases hsource : s.navigableAnchor r.sourceSymbol with
  | none => rfl
  | some source =>
    obtain ⟨hmem, hshown⟩ := s.mem_navigableAnchor hsource
    dsimp only
    rw [h source hmem hshown]
    cases s.resolvedReferenceTarget r.id with
    | none => rfl
    | some id =>
      dsimp only
      cases htarget : s.navigableAnchor id with
      | none => rfl
      | some target =>
        obtain ⟨hmem, hshown⟩ := s.mem_navigableAnchor htarget
        dsimp only
        rw [h target hmem hshown]

/-- The ends of an edge are children of two symbols that are shown. -/
theorem exists_of_account_eq_edge {r : ReferenceRecord} {a b : β}
    (h : account s child r = .edge a b) :
    ∃ x ∈ s.symbols.iter, ∃ y ∈ s.symbols.iter, x.navigable = true ∧ y.navigable = true ∧
      child x = some a ∧ child y = some b := by
  unfold account at h
  split at h
  · exact nomatch h
  · rename_i source hsource
    split at h
    · split_ifs at h
    · split at h
      · exact nomatch h
      · rename_i target htarget
        obtain ⟨hx, hxshown⟩ := s.mem_navigableAnchor hsource
        obtain ⟨hy, hyshown⟩ := s.mem_navigableAnchor htarget
        refine ⟨source, hx, target, hy, hxshown, hyshown, ?_⟩
        cases hsourceChild : child source with
        | none => cases htargetChild : child target <;> simp [Account.ofEnds, *] at h
        | some a' =>
          cases htargetChild : child target with
          | none => simp [Account.ofEnds, *] at h
          | some b' =>
            rw [hsourceChild, htargetChild, Account.ofEnds] at h
            split_ifs at h
            obtain ⟨rfl, rfl⟩ := Account.edge.inj h
            exact ⟨rfl, rfl⟩

end Accounts

/-! ## The loop -/

section Loop

variable {crate : RegexCrate} (s : IdentitySnapshot) (scope : List Char)
  (filter : FilePathFilter crate)

/-- What a round of the loop does is determined by the account of the reference. -/
theorem graphReference_eq (c : GraphCounts) (r : ReferenceRecord) :
    match account s (selectedSegment s scope filter) r with
    | .edge a b => graphReference s scope filter c r =
        { c with edges := c.edges.update (toLex (a, b)) (∅, 0) (KindCount.bump r.kind) }
    | .inbound => ∃ port, graphReference s scope filter c r =
        { c with portsIn := bumpPort c.portsIn port r.kind }
    | .outbound => ∃ port, graphReference s scope filter c r =
        { c with portsOut := bumpPort c.portsOut port r.kind }
    | .unlinked => graphReference s scope filter c r =
        { c with unlinked := s.tally r.id c.unlinked }
    | _ => graphReference s scope filter c r = c := by
  unfold account graphReference
  cases s.navigableAnchor r.sourceSymbol with
  | none => rfl
  | some source =>
    dsimp only
    cases s.resolvedReferenceTarget r.id with
    | none =>
      dsimp only
      cases selectedSegment s scope filter source <;> rfl
    | some id =>
      dsimp only
      cases s.navigableAnchor id with
      | none => rfl
      | some target =>
        dsimp only
        cases selectedSegment s scope filter source with
        | none =>
          cases selectedSegment s scope filter target with
          | none => rfl
          | some b => exact ⟨_, rfl⟩
        | some a =>
          cases selectedSegment s scope filter target with
          | none => exact ⟨_, rfl⟩
          | some b =>
            dsimp only [Account.ofEnds]
            by_cases hab : a = b
            · rw [if_pos hab, if_neg (not_not.mpr hab)]
            · rw [if_neg hab, if_pos hab]

/-- The counters after some references. -/
structure Accounted (refs : List ReferenceRecord) (c : GraphCounts) : Prop where
  edge : ∀ a b, ((c.edges.get? (toLex (a, b))).map (·.2)).getD 0 =
    accountOf s (selectedSegment s scope filter) (.edge a b) refs
  edges : (c.edges.values.map (·.2)).sum =
    refs.countP fun r => (account s (selectedSegment s scope filter) r).isEdge
  portsIn : (c.portsIn.values.map (·.2)).sum =
    accountOf s (selectedSegment s scope filter) .inbound refs
  portsOut : (c.portsOut.values.map (·.2)).sum =
    accountOf s (selectedSegment s scope filter) .outbound refs
  unlinked : c.unlinked.Balanced (accountOf s (selectedSegment s scope filter) .unlinked refs)

theorem sum_bump {κ : Type} [LinearOrder κ] (m : OrdMap κ KindCount) (k : κ) (kind : String) :
    ((m.update k (∅, 0) (KindCount.bump kind)).values.map (·.2)).sum =
      (m.values.map (·.2)).sum + 1 :=
  OrdMap.sum_update (·.2) rfl (fun _ => rfl) m k

variable {s scope filter} {refs : List ReferenceRecord} {c : GraphCounts}

theorem accountOf_append_self (r : ReferenceRecord) {x : Account (List Char)}
    (h : account s (selectedSegment s scope filter) r = x) :
    accountOf s (selectedSegment s scope filter) x (refs ++ [r]) =
      accountOf s (selectedSegment s scope filter) x refs + 1 := by
  rw [accountOf_append, if_pos h]

theorem accountOf_append_ne (r : ReferenceRecord) {x : Account (List Char)}
    (h : account s (selectedSegment s scope filter) r ≠ x) :
    accountOf s (selectedSegment s scope filter) x (refs ++ [r]) =
      accountOf s (selectedSegment s scope filter) x refs := by
  rw [accountOf_append, if_neg h, Nat.add_zero]

/-- A reference that leaves the counters alone. -/
theorem Accounted.skip (h : Accounted s scope filter refs c) (r : ReferenceRecord)
    (hnone : account s (selectedSegment s scope filter) r ∈
      ({.outside, .unanchored} : Set (Account (List Char))) ∨
        (account s (selectedSegment s scope filter) r).isIntra = true) :
    Accounted s scope filter (refs ++ [r]) c := by
  have hne : ∀ x : Account (List Char), x.isIntra = false → x ≠ .outside → x ≠ .unanchored →
      account s (selectedSegment s scope filter) r ≠ x := by
    rintro x hintra hout hunanchored rfl
    rcases hnone with (hout' | hunanchored') | hintra'
    · exact hout hout'
    · exact hunanchored hunanchored'
    · exact absurd (hintra.symm.trans hintra') (by decide)
  obtain ⟨hedge, hedges, hin, hout, hunlinked⟩ := h
  refine ⟨fun a b => ?_, ?_, ?_, ?_, ?_⟩
  · rw [hedge, accountOf_append_ne r (hne _ rfl (by simp) (by simp))]
  · have hisEdge : (account s (selectedSegment s scope filter) r).isEdge = false := by
      cases haccount : account s (selectedSegment s scope filter) r with
      | edge a b => exact absurd haccount (hne _ rfl (by simp) (by simp))
      | _ => rfl
    rw [hedges, countP_append, countP_singleton, hisEdge]
    rfl
  · rw [hin, accountOf_append_ne r (hne _ rfl (by simp) (by simp))]
  · rw [hout, accountOf_append_ne r (hne _ rfl (by simp) (by simp))]
  · rwa [accountOf_append_ne r (hne _ rfl (by simp) (by simp))]

/-- One round of the loop. -/
theorem Accounted.graphReference (h : Accounted s scope filter refs c) (r : ReferenceRecord) :
    Accounted s scope filter (refs ++ [r]) (graphReference s scope filter c r) := by
  have hstep := graphReference_eq s scope filter c r
  have hisEdge : (refs ++ [r]).countP
      (fun r => (account s (selectedSegment s scope filter) r).isEdge) =
        refs.countP (fun r => (account s (selectedSegment s scope filter) r).isEdge) +
          if (account s (selectedSegment s scope filter) r).isEdge then 1 else 0 := by
    rw [countP_append, countP_singleton]
  cases haccount : account s (selectedSegment s scope filter) r with
  | edge a b =>
    rw [haccount] at hstep hisEdge
    rw [hstep]
    obtain ⟨hedge, hedges, hin, hout, hunlinked⟩ := h
    refine ⟨fun a' b' => ?_, ?_, ?_, ?_, ?_⟩
    · have hold := hedge a' b'
      rw [OrdMap.get?_update]
      by_cases hsame : toLex (a', b') = toLex (a, b)
      · obtain ⟨rfl, rfl⟩ := Prod.mk.inj (toLex_inj.mp hsame)
        rw [if_pos rfl, accountOf_append_self r haccount, ← hold]
        cases c.edges.get? (toLex (a', b')) <;> rfl
      · rw [if_neg hsame, hold, accountOf_append_ne]
        rw [haccount]
        rintro ⟨⟩
        exact hsame rfl
    · rw [sum_bump, hedges, hisEdge]
      rfl
    · rw [hin, accountOf_append_ne r (by simp [haccount])]
    · rw [hout, accountOf_append_ne r (by simp [haccount])]
    · rwa [accountOf_append_ne r (by simp [haccount])]
  | inbound =>
    rw [haccount] at hstep hisEdge
    obtain ⟨port, hstep⟩ := hstep
    rw [hstep]
    obtain ⟨hedge, hedges, hin, hout, hunlinked⟩ := h
    refine ⟨fun a b => ?_, hedges.trans hisEdge.symm, ?_, ?_, ?_⟩
    · rw [hedge, accountOf_append_ne r (by simp [haccount])]
    · rw [bumpPort, sum_bump, hin, accountOf_append_self r haccount]
    · rw [hout, accountOf_append_ne r (by simp [haccount])]
    · rwa [accountOf_append_ne r (by simp [haccount])]
  | outbound =>
    rw [haccount] at hstep hisEdge
    obtain ⟨port, hstep⟩ := hstep
    rw [hstep]
    obtain ⟨hedge, hedges, hin, hout, hunlinked⟩ := h
    refine ⟨fun a b => ?_, hedges.trans hisEdge.symm, ?_, ?_, ?_⟩
    · rw [hedge, accountOf_append_ne r (by simp [haccount])]
    · rw [hin, accountOf_append_ne r (by simp [haccount])]
    · rw [bumpPort, sum_bump, hout, accountOf_append_self r haccount]
    · rwa [accountOf_append_ne r (by simp [haccount])]
  | unlinked =>
    rw [haccount] at hstep hisEdge
    rw [hstep]
    obtain ⟨hedge, hedges, hin, hout, hunlinked⟩ := h
    refine ⟨fun a b => ?_, hedges.trans hisEdge.symm, ?_, ?_, ?_⟩
    · rw [hedge, accountOf_append_ne r (by simp [haccount])]
    · rw [hin, accountOf_append_ne r (by simp [haccount])]
    · rw [hout, accountOf_append_ne r (by simp [haccount])]
    · rw [accountOf_append_self r haccount]
      exact hunlinked.tally s r.id
  | intra a =>
    rw [haccount] at hstep
    rw [hstep]
    exact h.skip r (Or.inr (by rw [haccount]; rfl))
  | outside =>
    rw [haccount] at hstep
    rw [hstep]
    exact h.skip r (Or.inl (Or.inl haccount))
  | unanchored =>
    rw [haccount] at hstep
    rw [hstep]
    exact h.skip r (Or.inl (Or.inr haccount))

/-- The whole loop. -/
theorem accounted_graphCounts (s : IdentitySnapshot) (scope : List Char)
    (filter : FilePathFilter crate) :
    Accounted s scope filter s.references.iter (graphCounts s scope filter) := by
  unfold graphCounts
  generalize s.references.iter = refs
  induction refs using reverseRecOn with
  | nil => exact ⟨fun _ _ => rfl, rfl, rfl, rfl, .empty⟩
  | append_singleton refs r ih =>
    rw [foldl_append, foldl_cons, foldl_nil]
    exact ih.graphReference r

/-- No row stands for no reference. -/
structure GraphCounts.Positive (c : GraphCounts) : Prop where
  edges : ∀ v ∈ c.edges.values, 0 < v.2
  portsIn : ∀ v ∈ c.portsIn.values, 0 < v.2
  portsOut : ∀ v ∈ c.portsOut.values, 0 < v.2

theorem pos_bump {κ : Type} [LinearOrder κ] {m : OrdMap κ KindCount} (h : ∀ v ∈ m.values, 0 < v.2)
    (k : κ) (kind : String) : ∀ v ∈ (m.update k (∅, 0) (KindCount.bump kind)).values, 0 < v.2 := by
  intro v hv
  obtain ⟨k', hget⟩ := OrdMap.mem_values.mp hv
  rw [OrdMap.get?_update] at hget
  split_ifs at hget with hsame
  · obtain rfl := Option.some.inj hget
    exact Nat.succ_pos _
  · exact h v (OrdMap.mem_values.mpr ⟨k', hget⟩)

theorem GraphCounts.Positive.graphReference (h : c.Positive) (r : ReferenceRecord) :
    (graphReference s scope filter c r).Positive := by
  have hstep := graphReference_eq s scope filter c r
  obtain ⟨hedges, hin, hout⟩ := h
  cases haccount : account s (selectedSegment s scope filter) r with
  | edge a b =>
    rw [haccount] at hstep
    rw [hstep]
    exact ⟨pos_bump hedges _ _, hin, hout⟩
  | inbound =>
    rw [haccount] at hstep
    obtain ⟨port, hstep⟩ := hstep
    rw [hstep]
    exact ⟨hedges, pos_bump hin _ _, hout⟩
  | outbound =>
    rw [haccount] at hstep
    obtain ⟨port, hstep⟩ := hstep
    rw [hstep]
    exact ⟨hedges, hin, pos_bump hout _ _⟩
  | unlinked =>
    rw [haccount] at hstep
    rw [hstep]
    exact ⟨hedges, hin, hout⟩
  | _ =>
    rw [haccount] at hstep
    rw [hstep]
    exact ⟨hedges, hin, hout⟩

theorem positive_graphCounts (s : IdentitySnapshot) (scope : List Char)
    (filter : FilePathFilter crate) : (graphCounts s scope filter).Positive := by
  refine foldlRecOn _ _ ⟨?_, ?_, ?_⟩ fun c hc r _ => hc.graphReference r
  · exact fun v hv => nomatch hv
  · exact fun v hv => nomatch hv
  · exact fun v hv => nomatch hv

end Loop

end CodeMoniker
