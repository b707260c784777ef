import CodeMoniker.PythonBindings

/-!
# Propagation of Python bindings ends

Merging goes up in an order of the targets (`BindingTarget.le_merge`), and the same target merged
again changes nothing (`BindingTarget.merge_merge`). Among targets with symbols of one finite set a
chain of this order is short (`BindingTarget.height_lt`), names and owners are those of the imports
and definitions (`Within`), so both loops end whatever wildcard cycles there are. Where they end
nothing adds or changes an alias any more (`build_closed`).
-/

namespace CodeMoniker

open List ByteCodec FuelLoops Python

namespace Python.BindingTarget

/-! ## The order of merging -/

/-- The first may still become the second. -/
def Le : BindingTarget → BindingTarget → Prop
  | workspace scope evidence targets reason, workspace scope' evidence' targets' reason' =>
    (scope' = scope ∨ scope' = .global) ∧ (evidence' = evidence ∨ evidence' = .globalBinding) ∧
      (∀ o ∈ targets, o ∈ targets') ∧ (reason = none ∨ reason' = reason)
  | external origin target, external origin' target' => origin = origin' ∧ target = target'
  | workspace _ _ targets _, dynamic candidates => ∀ o ∈ targets, o ∈ candidates
  | external _ _, dynamic _ => True
  | dynamic candidates, dynamic candidates' => ∀ o ∈ candidates, o ∈ candidates'
  | workspace _ _ _ _, external _ _ => False
  | external _ _, workspace _ _ _ _ => False
  | dynamic _, workspace _ _ _ _ => False
  | dynamic _, external _ _ => False

theorem Le.refl (a : BindingTarget) : a.Le a := by
  cases a with
  | workspace scope evidence targets reason =>
    exact ⟨Or.inl rfl, Or.inl rfl, fun _ h => h, Or.inr rfl⟩
  | external origin target => exact ⟨rfl, rfl⟩
  | dynamic candidates => exact fun _ h => h

theorem Le.trans {a b c : BindingTarget} (h : a.Le b) (h' : b.Le c) : a.Le c := by
  cases a <;> cases b <;> try exact h.elim
  all_goals cases c <;> try exact h'.elim
  case workspace.workspace.workspace =>
    obtain ⟨hscope, hevidence, htargets, hreason⟩ := h
    obtain ⟨hscope', hevidence', htargets', hreason'⟩ := h'
    refine ⟨?_, ?_, fun o ho => htargets' o (htargets o ho), ?_⟩
    · rcases hscope' with rfl | rfl
      · exact hscope
      · exact Or.inr rfl
    · rcases hevidence' with rfl | rfl
      · exact hevidence
      · exact Or.inr rfl
    · rcases hreason with rfl | rfl
      · exact Or.inl rfl
      · exact hreason'
  case workspace.workspace.dynamic => exact fun o ho => h' o (h.2.2.1 o ho)
  case workspace.dynamic.dynamic => exact fun o ho => h' o (h o ho)
  case external.external.external => exact ⟨h.1.trans h'.1, h.2.trans h'.2⟩
  case external.external.dynamic => trivial
  case external.dynamic.dynamic => trivial
  case dynamic.dynamic.dynamic => exact fun o ho => h' o (h o ho)

theorem Le.antisymm {a b : BindingTarget} (h : a.Le b) (h' : b.Le a) : a = b := by
  cases a <;> cases b <;> try exact h.elim
  all_goals try exact h'.elim
  case workspace.workspace =>
    obtain ⟨hscope, hevidence, htargets, hreason⟩ := h
    obtain ⟨hscope', hevidence', htargets', hreason'⟩ := h'
    congr 1
    · rcases hscope with rfl | rfl
      · rfl
      · rcases hscope' with rfl | rfl <;> rfl
    · rcases hevidence with rfl | rfl
      · rfl
      · rcases hevidence' with rfl | rfl <;> rfl
    · exact OrdSet.ext fun o => ⟨htargets o, htargets' o⟩
    · rcases hreason with rfl | rfl
      · rcases hreason' with rfl | rfl <;> rfl
      · rfl
  case external.external =>
    obtain ⟨rfl, rfl⟩ := h
    rfl
  case dynamic.dynamic => exact congrArg dynamic (OrdSet.ext fun o => ⟨h o, h' o⟩)

instance : PartialOrder BindingTarget where
  le := Le
  le_refl := Le.refl
  le_trans _ _ _ := Le.trans
  le_antisymm _ _ := Le.antisymm

theorem le_merge (a b : BindingTarget) : a ≤ a.merge b := by
  cases a with
  | workspace scope evidence targets reason =>
    cases b with
    | workspace scope' evidence' targets' reason' =>
      refine ⟨?_, ?_, fun o ho => OrdSet.mem_union.mpr (Or.inl ho), ?_⟩
      · split_ifs <;> simp
      · split_ifs <;> simp
      · cases reason <;> simp
    | external origin target => exact fun o ho => ho
    | dynamic candidates => exact fun o ho => OrdSet.mem_union.mpr (Or.inl ho)
  | external origin target =>
    cases b with
    | workspace scope' evidence' targets' reason' => trivial
    | external origin' target' =>
      by_cases htarget : target = target'
      · rw [merge, if_pos htarget]
      · rw [merge, if_neg htarget]
        trivial
    | dynamic candidates => trivial
  | dynamic candidates =>
    cases b with
    | workspace scope' evidence' targets' reason' =>
      exact fun o ho => OrdSet.mem_union.mpr (Or.inl ho)
    | external origin' target' => exact fun o ho => ho
    | dynamic candidates' => exact fun o ho => OrdSet.mem_union.mpr (Or.inl ho)

theorem merge_merge (a b : BindingTarget) : (a.merge b).merge b = a.merge b := by
  have hunion : ∀ s t : SymbolSet, s ∪ t ∪ t = s ∪ t := by
    intro s t
    ext o
    simp
  cases a with
  | workspace scope evidence targets reason =>
    cases b with
    | workspace scope' evidence' targets' reason' =>
      simp only [merge, hunion, workspace.injEq, true_and]
      refine ⟨?_, ?_, ?_⟩
      · split_ifs <;> simp_all
      · split_ifs <;> simp_all
      · cases reason <;> cases reason' <;> simp
    | external origin target => rfl
    | dynamic candidates => simp only [merge, hunion]
  | external origin target =>
    cases b with
    | workspace scope' evidence' targets' reason' =>
      have hself : targets' ∪ targets' = targets' := by
        ext o
        simp
      simp only [merge, hself]
    | external origin' target' =>
      by_cases htarget : target = target'
      · simp only [merge, if_pos htarget]
      · simp only [merge, if_neg htarget]
    | dynamic candidates =>
      have hself : candidates ∪ candidates = candidates := by
        ext o
        simp
      simp only [merge, hself]
  | dynamic candidates => cases b <;> simp only [merge, hunion]

/-! ## Heights -/

/-- A value that only ever becomes `top`. -/
theorem sticky {α : Type} [DecidableEq α] {top x x' : α} (h : x' = x ∨ x' = top) :
    (if x = top then 1 else 0) ≤ (if x' = top then 1 else 0) ∧
      ((if x' = top then 1 else 0) ≤ (if x = top then 1 else 0) → x = x') := by
  rcases h with rfl | rfl
  · exact ⟨le_rfl, fun _ => rfl⟩
  · rw [if_pos rfl]
    split_ifs with hx
    · exact ⟨le_rfl, fun _ => hx⟩
    · exact ⟨Nat.zero_le 1, fun h => absurd h (by decide)⟩

/-- A value that is set once. -/
theorem set_once {α : Type} [DecidableEq α] {x x' : Option α} (h : x = none ∨ x' = x) :
    (if x = none then 0 else 1) ≤ (if x' = none then 0 else 1) ∧
      ((if x' = none then 0 else 1) ≤ (if x = none then 0 else 1) → x = x') := by
  rcases h with rfl | rfl
  · rw [if_pos rfl]
    split_ifs with hx
    · exact ⟨le_rfl, fun _ => hx.symm⟩
    · exact ⟨Nat.zero_le 1, fun h => absurd h (by decide)⟩
  · exact ⟨le_rfl, fun _ => rfl⟩

/-- How far a target has climbed, for targets with at most `n` symbols. -/
def height (n : ℕ) : BindingTarget → ℕ
  | external _ _ => 1
  | workspace scope evidence targets reason =>
    1 + (if scope = .global then 1 else 0) + (if evidence = .globalBinding then 1 else 0) +
      (if reason = none then 0 else 1) + targets.card
  | dynamic candidates => 5 + n + candidates.card

theorem height_pos (n : ℕ) (a : BindingTarget) : 0 < a.height n := by
  cases a <;> simp only [height] <;> omega

theorem height_lt {n : ℕ} {a b : BindingTarget} (h : a ≤ b) (hne : a ≠ b)
    (hn : a.workspaceCandidates.card ≤ n) : a.height n < b.height n := by
  by_contra hlt
  refine hne ?_
  cases a with
  | workspace scope evidence targets reason =>
    cases b with
    | workspace scope' evidence' targets' reason' =>
      obtain ⟨hscope, hevidence, htargets, hreason⟩ := h
      have hcard := OrdSet.card_le_of_subset htargets
      obtain ⟨hscope, hsameScope⟩ := sticky hscope
      obtain ⟨hevidence, hsameEvidence⟩ := sticky hevidence
      obtain ⟨hreason, hsameReason⟩ := set_once hreason
      simp only [height] at hlt
      -- every part is as high as before, so it is what it was
      rw [hsameScope (by omega), hsameEvidence (by omega), hsameReason (by omega),
        OrdSet.eq_of_subset_of_card_le htargets (by omega)]
    | external origin target => exact h.elim
    | dynamic candidates =>
      simp only [height] at hlt
      change targets.card ≤ n at hn
      split_ifs at hlt <;> omega
  | external origin target =>
    cases b with
    | workspace scope' evidence' targets' reason' => exact h.elim
    | external origin' target' =>
      obtain ⟨rfl, rfl⟩ := h
      rfl
    | dynamic candidates =>
      simp only [height] at hlt
      omega
  | dynamic candidates =>
    cases b with
    | workspace scope' evidence' targets' reason' => exact h.elim
    | external origin' target' => exact h.elim
    | dynamic candidates' =>
      simp only [height] at hlt
      exact congrArg dynamic (OrdSet.eq_of_subset_of_card_le h (by omega))

end Python.BindingTarget

open BindingTarget

namespace PythonBindings

/-! ## Merging one alias -/

/-- What an alias becomes when `target` is merged into it. -/
def merged (b : PythonBindings) (owner : Moniker) (name : Bytes) (target : BindingTarget) :
    BindingTarget :=
  ((b.aliasOf owner name).map (·.merge target)).getD target

variable (b : PythonBindings)

theorem lookup_getD (owner : Moniker) (name : Bytes) :
    ((b.aliases.lookup owner).getD ∅).lookup name = b.aliasOf owner name := by
  unfold aliasOf
  cases b.aliases.lookup owner <;> simp

/-- One alias becomes `target`. -/
def setAlias (b : PythonBindings) (owner : Moniker) (name : Bytes) (target : BindingTarget) :
    PythonBindings :=
  { b with
    aliases := b.aliases.insert owner (((b.aliases.lookup owner).getD ∅).insert name target) }

theorem aliasOf_setAlias (owner owner' : Moniker) (name name' : Bytes)
    (target : BindingTarget) : (b.setAlias owner name target).aliasOf owner' name' =
      if owner' = owner ∧ name' = name then some target else b.aliasOf owner' name' := by
  by_cases howner : owner' = owner
  · subst howner
    by_cases hname : name' = name
    · subst hname
      simp [aliasOf, setAlias]
    · rw [if_neg fun h => hname h.2, ← lookup_getD b owner' name']
      simp only [aliasOf, setAlias, AList.lookup_insert, Option.bind_some]
      exact AList.lookup_insert_ne hname
  · rw [if_neg fun h => howner h.1, aliasOf, setAlias, AList.lookup_insert_ne howner, aliasOf]

theorem mergeAlias_eq (owner : Moniker) (name : Bytes)
    (target : BindingTarget) : b.mergeAlias owner name target =
      (b.setAlias owner name (b.merged owner name target),
        decide (b.aliasOf owner name ≠ some (b.merged owner name target))) := by
  rw [mergeAlias, setAlias, merged, ← lookup_getD]
  cases ((b.aliases.lookup owner).getD ∅).lookup name with
  | none => simp
  | some existing => simp [eq_comm]

theorem aliasOf_mergeAlias (owner owner' : Moniker) (name name' : Bytes)
    (target : BindingTarget) : (b.mergeAlias owner name target).1.aliasOf owner' name' =
      if owner' = owner ∧ name' = name then some (b.merged owner name target)
      else b.aliasOf owner' name' := by
  rw [mergeAlias_eq, aliasOf_setAlias]

theorem mergeAlias_quiet {b : PythonBindings} {owner : Moniker} {name : Bytes}
    {target : BindingTarget} : (b.mergeAlias owner name target).2 = false ↔
      b.aliasOf owner name = some (b.merged owner name target) := by
  rw [mergeAlias_eq, decide_eq_false_iff_not, not_not]

/-- An alias never goes back. -/
theorem le_merged {b : PythonBindings} {owner : Moniker} {name : Bytes}
    {existing : BindingTarget} (h : b.aliasOf owner name = some existing) (target : BindingTarget) :
    existing ≤ b.merged owner name target := by
  rw [merged, h]
  exact existing.le_merge target

/-! ## States of the loops -/

/-- The owners, names and symbols that the loops may meet, and what they never change. -/
structure Bounds where
  owners : Finset Moniker
  names : Finset Bytes
  symbols : SymbolSet
  start : PythonBindings

structure Within (x : Bounds) (b : PythonBindings) : Prop where
  wildcards : b.wildcardImports = x.start.wildcardImports
  policies : b.exportPolicies = x.start.exportPolicies
  aliases : ∀ {owner name target}, b.aliasOf owner name = some target →
    owner ∈ x.owners ∧ name ∈ x.names ∧ ∀ o ∈ target.workspaceCandidates, o ∈ x.symbols
  dynamic : b.dynamicWildcardOwners ⊆ x.owners

/-- What the loops depend on. -/
def view (b : PythonBindings) : (Moniker × Bytes → Option BindingTarget) × Finset Moniker :=
  (fun key => b.aliasOf key.1 key.2, b.dynamicWildcardOwners)

def aliasHeight (n : ℕ) : Option BindingTarget → ℕ
  | none => 0
  | some target => target.height n

/-- How far all aliases have climbed, with the number of dynamic owners. -/
def totalHeight (x : Bounds)
    (v : (Moniker × Bytes → Option BindingTarget) × Finset Moniker) : ℕ :=
  ∑ key ∈ x.owners ×ˢ x.names, aliasHeight x.symbols.card (v.1 key) + v.2.card

theorem workspaceCandidates_merge {a b : BindingTarget} {o : SymbolOrdinal}
    (h : o ∈ (a.merge b).workspaceCandidates) :
    o ∈ a.workspaceCandidates ∨ o ∈ b.workspaceCandidates := by
  cases a <;> cases b <;> simp only [BindingTarget.merge] at h
  case external.external =>
    split_ifs at h
    · exact Or.inl h
    · exact Or.inl h
  all_goals simp_all [workspaceCandidates]

variable {x : Bounds}

theorem Within.climbs_mergeAlias {owner : Moniker} {name : Bytes}
    {target : BindingTarget} (howner : owner ∈ x.owners) (hname : name ∈ x.names)
    (htarget : ∀ o ∈ target.workspaceCandidates, o ∈ x.symbols) :
    Climbs (Within x) view (totalHeight x) fun b => b.mergeAlias owner name target where
  keeps b h := by
    refine ⟨?_, ?_, fun {owner' name' target'} halias => ?_, ?_⟩
    · rw [mergeAlias_eq]
      exact h.wildcards
    · rw [mergeAlias_eq]
      exact h.policies
    · rw [aliasOf_mergeAlias] at halias
      split_ifs at halias with hkey
      · obtain ⟨rfl, rfl⟩ := hkey
        obtain rfl := Option.some.inj halias
        refine ⟨howner, hname, fun o ho => ?_⟩
        cases hexisting : b.aliasOf owner' name' with
        | none =>
          rw [merged, hexisting] at ho
          exact htarget o ho
        | some existing =>
          rw [merged, hexisting] at ho
          rcases workspaceCandidates_merge ho with ho | ho
          · exact (h.aliases hexisting).2.2 o ho
          · exact htarget o ho
      · exact h.aliases halias
    · rw [mergeAlias_eq]
      exact h.dynamic
  climbs b h hchanged := by
    have hne : b.aliasOf owner name ≠ some (b.merged owner name target) := fun hsame => by
      rw [mergeAlias_quiet.mpr hsame] at hchanged
      cases hchanged
    have hother : ∀ key, key ≠ (owner, name) →
        aliasHeight x.symbols.card ((b.mergeAlias owner name target).1.aliasOf key.1 key.2) =
          aliasHeight x.symbols.card (b.aliasOf key.1 key.2) := by
      intro key hkey
      rw [aliasOf_mergeAlias, if_neg fun h => hkey (Prod.ext h.1 h.2)]
    have hself : aliasHeight x.symbols.card (b.aliasOf owner name) <
        aliasHeight x.symbols.card ((b.mergeAlias owner name target).1.aliasOf owner name) := by
      rw [aliasOf_mergeAlias, if_pos ⟨rfl, rfl⟩]
      cases hexisting : b.aliasOf owner name with
      | none => exact (b.merged owner name target).height_pos _
      | some existing =>
        have hcard := OrdSet.card_le_of_subset (h.aliases hexisting).2.2
        rw [hexisting] at hne
        exact height_lt (le_merged hexisting target)
          (fun h => hne (congrArg _ h)) hcard
    have hdynamic : (b.mergeAlias owner name target).1.dynamicWildcardOwners =
        b.dynamicWildcardOwners := by
      rw [mergeAlias_eq]
      rfl
    simp only [totalHeight, view, hdynamic]
    refine Nat.add_lt_add_right (Finset.sum_lt_sum (fun key _ => ?_) ?_) _
    · by_cases hkey : key = (owner, name)
      · rw [hkey]
        exact hself.le
      · exact (hother key hkey).ge
    · exact ⟨(owner, name), Finset.mem_product.mpr ⟨howner, hname⟩, hself⟩
  stays b h hquiet := by
    have hsame := mergeAlias_quiet.mp hquiet
    refine Prod.ext (funext fun key => ?_) ?_
    · change (b.mergeAlias owner name target).1.aliasOf key.1 key.2 = b.aliasOf key.1 key.2
      rw [aliasOf_mergeAlias]
      split_ifs with hkey
      · rw [hkey.1, hkey.2, hsame]
      · rfl
    · change (b.mergeAlias owner name target).1.dynamicWildcardOwners = _
      rw [mergeAlias_eq]
      rfl
  same b b' _ _ hview := by
    have halias : b.aliasOf owner name = b'.aliasOf owner name :=
      congrFun (congrArg Prod.fst hview) (owner, name)
    rw [mergeAlias_eq, mergeAlias_eq, merged, merged, halias]

/-! ## Wildcard imports -/

theorem mem_exportedAliases {b : PythonBindings} {owner : Moniker} {e : Bytes × BindingTarget} :
    e ∈ b.exportedAliases owner ↔
      b.aliasOf owner e.1 = some e.2 ∧ b.exportsName owner e.1 = true := by
  obtain ⟨name, target⟩ := e
  rw [← lookup_getD, exportedAliases, mem_map]
  simp only [mem_filter, Prod.mk.injEq]
  constructor
  · rintro ⟨e, ⟨he, hexport⟩, rfl, rfl⟩
    exact ⟨AList.mem_lookup_iff.mpr he, hexport⟩
  · rintro ⟨halias, hexport⟩
    exact ⟨⟨name, target⟩, ⟨AList.mem_lookup_iff.mp halias, hexport⟩, rfl, rfl⟩

theorem Within.climbs_exports {b : PythonBindings} (h : Within x b) {owner : Moniker}
    (howner : owner ∈ x.owners) (target : Moniker) : Climbs (Within x) view (totalHeight x) fun s =>
      sweep (fun b e => b.mergeAlias owner e.1 e.2) s (b.exportedAliases target) := by
  refine climbs_sweep fun e he => ?_
  obtain ⟨-, hname, hsymbols⟩ := h.aliases (mem_exportedAliases.mp he).1
  exact climbs_mergeAlias howner hname hsymbols

/-- A wildcard import that has nothing to add. -/
def WildcardQuiet (b : PythonBindings) (wildcard : WildcardImport) : Prop :=
  wildcard.external.isSome = true ∨
    if b.isDynamic wildcard.target = true then wildcard.owner ∈ b.dynamicWildcardOwners
    else ∀ e : Bytes × BindingTarget, b.aliasOf wildcard.target e.1 = some e.2 →
      b.exportsName wildcard.target e.1 = true →
        b.aliasOf wildcard.owner e.1 = some (b.merged wildcard.owner e.1 e.2)

theorem Within.propagateWildcard_quiet {b : PythonBindings} (h : Within x b)
    {wildcard : WildcardImport} (howner : wildcard.owner ∈ x.owners) :
    (b.propagateWildcard wildcard).2 = false ↔ b.WildcardQuiet wildcard := by
  by_cases hexternal : wildcard.external.isSome = true
  · simp [propagateWildcard, WildcardQuiet, hexternal]
  rw [propagateWildcard, WildcardQuiet, if_neg hexternal, or_iff_right hexternal]
  split_ifs
  · simp
  · have hclimbs : ∀ e ∈ b.exportedAliases wildcard.target, Climbs (Within x) view (totalHeight x)
        fun b => b.mergeAlias wildcard.owner e.1 e.2 := fun e he =>
      climbs_mergeAlias howner (h.aliases (mem_exportedAliases.mp he).1).2.1
        (h.aliases (mem_exportedAliases.mp he).1).2.2
    rw [sweep_quiet_iff hclimbs h]
    refine forall_congr' fun e => ?_
    rw [mem_exportedAliases, mergeAlias_quiet, and_imp]

theorem Within.congr_view {b b' : PythonBindings} (h : Within x b) (h' : Within x b')
    (hview : view b = view b') (wildcard : WildcardImport) :
    b.WildcardQuiet wildcard ↔ b'.WildcardQuiet wildcard := by
  have halias : ∀ owner name, b.aliasOf owner name = b'.aliasOf owner name := fun owner name =>
    congrFun (congrArg Prod.fst hview) (owner, name)
  have hdynamic : b.dynamicWildcardOwners = b'.dynamicWildcardOwners := congrArg Prod.snd hview
  have hpolicies : b.exportPolicies = b'.exportPolicies := h.policies.trans h'.policies.symm
  have hisDynamic : ∀ target, b.isDynamic target = b'.isDynamic target := fun target => by
    rw [isDynamic, isDynamic, hpolicies, hdynamic]
  have hexports : ∀ owner name, b.exportsName owner name = b'.exportsName owner name :=
    fun owner name => by rw [exportsName, exportsName, hpolicies]
  simp only [WildcardQuiet, merged, halias, hdynamic, hisDynamic, hexports]

theorem climbs_propagateWildcard {wildcard : WildcardImport} (howner : wildcard.owner ∈ x.owners) :
    Climbs (Within x) view (totalHeight x) (propagateWildcard · wildcard) where
  keeps b h := by
    unfold propagateWildcard
    split_ifs
    · exact h
    · exact ⟨h.wildcards, h.policies, h.aliases, Finset.insert_subset howner h.dynamic⟩
    · exact (h.climbs_exports howner wildcard.target).keeps b h
  climbs b h hchanged := by
    unfold propagateWildcard at hchanged ⊢
    split_ifs at hchanged ⊢ with hexternal hdynamic
    · have hcard := Finset.card_insert_of_notMem (of_decide_eq_true hchanged)
      simp only [totalHeight, view, hcard]
      exact Nat.lt_succ_self _
    · exact (h.climbs_exports howner wildcard.target).climbs b h hchanged
  stays b h hquiet := by
    unfold propagateWildcard at hquiet ⊢
    split_ifs at hquiet ⊢ with hexternal hdynamic
    · rfl
    · have hin : wildcard.owner ∈ b.dynamicWildcardOwners := by simpa using hquiet
      simp only [view, Finset.insert_eq_of_mem hin]
    · exact (h.climbs_exports howner wildcard.target).stays b h hquiet
  same b b' h h' hview := by
    have hiff := (h.propagateWildcard_quiet howner).trans
      ((h.congr_view h' hview wildcard).trans (h'.propagateWildcard_quiet howner).symm)
    rwa [← Bool.not_eq_true, ← Bool.not_eq_true, not_iff_not, ← Bool.eq_iff_iff] at hiff

/-! ## Pending bindings -/

theorem Within.pendingTarget {b : PythonBindings} (h : Within x b)
    {pending : PendingBinding} {target : BindingTarget}
    (htarget : b.pendingTarget pending = some target) :
    ∀ o ∈ target.workspaceCandidates, o ∈ x.symbols := by
  obtain ⟨existing, hexisting, rfl⟩ := Option.map_eq_some_iff.mp htarget
  have hsymbols := (h.aliases hexisting).2.2
  split_ifs
  · cases existing with
    | workspace scope evidence targets reason => exact hsymbols
    | external origin target => exact hsymbols
    | dynamic candidates => exact hsymbols
  · exact hsymbols

theorem Within.climbs_pending {b : PythonBindings} (h : Within x b)
    {pending : PendingBinding} (howners : ∀ owner ∈ pending.owners, owner ∈ x.owners)
    (hname : pending.name ∈ x.names) {target : BindingTarget}
    (htarget : b.pendingTarget pending = some target) : ∀ owner ∈ pending.owners,
      Climbs (Within x) view (totalHeight x) fun b => b.mergeAlias owner pending.name target :=
  fun owner howner => climbs_mergeAlias (howners owner howner) hname (h.pendingTarget htarget)

/-- What a binding that has nothing to add looks like. -/
def PendingQuiet (b : PythonBindings) (pending : PendingBinding) : Prop :=
  ∀ target, b.pendingTarget pending = some target → ∀ owner ∈ pending.owners,
    b.aliasOf owner pending.name = some (b.merged owner pending.name target)

theorem Within.propagatePending_quiet {b : PythonBindings} (h : Within x b)
    {pending : PendingBinding} (howners : ∀ owner ∈ pending.owners, owner ∈ x.owners)
    (hname : pending.name ∈ x.names) :
    (b.propagatePending pending).2 = false ↔ b.PendingQuiet pending := by
  rw [propagatePending, PendingQuiet]
  cases htarget : b.pendingTarget pending with
  | none => simp
  | some target =>
    simp only [sweep_quiet_iff (h.climbs_pending howners hname htarget) h, mergeAlias_quiet,
      Option.some.injEq, forall_eq']

theorem pendingQuiet_congr {b b' : PythonBindings} (hview : view b = view b')
    (pending : PendingBinding) : b.PendingQuiet pending ↔ b'.PendingQuiet pending := by
  have halias : ∀ owner name, b.aliasOf owner name = b'.aliasOf owner name := fun owner name =>
    congrFun (congrArg Prod.fst hview) (owner, name)
  simp only [PendingQuiet, PythonBindings.pendingTarget, merged, halias]

theorem climbs_propagatePending {pending : PendingBinding}
    (howners : ∀ owner ∈ pending.owners, owner ∈ x.owners) (hname : pending.name ∈ x.names) :
    Climbs (Within x) view (totalHeight x) (propagatePending · pending) where
  keeps b h := by
    unfold propagatePending
    cases htarget : b.pendingTarget pending with
    | none => exact h
    | some target => exact (climbs_sweep (h.climbs_pending howners hname htarget)).keeps b h
  climbs b h hchanged := by
    unfold propagatePending at hchanged ⊢
    cases htarget : b.pendingTarget pending with
    | none => simp [htarget] at hchanged
    | some target =>
      rw [htarget] at hchanged
      exact (climbs_sweep (h.climbs_pending howners hname htarget)).climbs b h hchanged
  stays b h hquiet := by
    unfold propagatePending at hquiet ⊢
    cases htarget : b.pendingTarget pending with
    | none => rfl
    | some target =>
      rw [htarget] at hquiet
      exact (climbs_sweep (h.climbs_pending howners hname htarget)).stays b h hquiet
  same b b' h h' hview := by
    have hiff := (h.propagatePending_quiet howners hname).trans
      ((pendingQuiet_congr hview pending).trans (h'.propagatePending_quiet howners hname).symm)
    rwa [← Bool.not_eq_true, ← Bool.not_eq_true, not_iff_not, ← Bool.eq_iff_iff] at hiff

/-! ## The loops -/

/-- No aliases climb higher. -/
def maxHeight (x : Bounds) : ℕ :=
  (x.owners ×ˢ x.names).card * (5 + x.symbols.card + x.symbols.card) + x.owners.card

theorem Within.totalHeight_le {b : PythonBindings} (h : Within x b) :
    totalHeight x (view b) ≤ maxHeight x := by
  refine Nat.add_le_add (Finset.sum_le_card_nsmul _ _ _ fun key _ => ?_)
    (Finset.card_le_card h.dynamic)
  change aliasHeight x.symbols.card (b.aliasOf key.1 key.2) ≤ _
  cases halias : b.aliasOf key.1 key.2 with
  | none => exact Nat.zero_le _
  | some target =>
    have hcard := OrdSet.card_le_of_subset (h.aliases halias).2.2
    cases target with
    | workspace scope evidence targets reason =>
      simp only [aliasHeight, height]
      change targets.card ≤ _ at hcard
      split_ifs <;> omega
    | external origin target =>
      simp only [aliasHeight, height]
      omega
    | dynamic candidates =>
      simp only [aliasHeight, height]
      change candidates.card ≤ _ at hcard
      omega

/-- The names and owners of the imports are among those that the loops may meet. -/
structure Bounds.Covers (x : Bounds) (pendingBindings : List PendingBinding) : Prop where
  wildcards : ∀ wildcard ∈ x.start.wildcardImports, wildcard.owner ∈ x.owners
  owners : ∀ pending ∈ pendingBindings, ∀ owner ∈ pending.owners, owner ∈ x.owners
  names : ∀ pending ∈ pendingBindings, pending.name ∈ x.names

variable {x : Bounds} {pendingBindings : List PendingBinding}

theorem Bounds.Covers.climbs_wildcards (hx : x.Covers pendingBindings) :
    ∀ wildcard ∈ x.start.wildcardImports,
      Climbs (Within x) view (totalHeight x) (propagateWildcard · wildcard) :=
  fun wildcard hwildcard => climbs_propagateWildcard (hx.wildcards wildcard hwildcard)

theorem Bounds.Covers.climbs_pending (hx : x.Covers pendingBindings) : ∀ pending ∈ pendingBindings,
      Climbs (Within x) view (totalHeight x) (propagatePending · pending) :=
  fun pending hpending =>
    climbs_propagatePending (hx.owners pending hpending) (hx.names pending hpending)

theorem fuelIrrelevant_wildcardPass : FuelIrrelevant fun (_ : ℕ) (b : PythonBindings) =>
    Run.done (sweep propagateWildcard b b.wildcardImports) := fun _ _ _ h _ => h

theorem fuelIrrelevant_propagateWildcards : FuelIrrelevant propagateWildcards :=
  fuelIrrelevant_untilStable fuelIrrelevant_wildcardPass

theorem propagateWildcards_ends (hx : x.Covers pendingBindings) {b : PythonBindings}
    (h : Within x b) : ∃ fuel result, propagateWildcards fuel b = .done result ∧
      Within x result ∧ totalHeight x (view b) ≤ totalHeight x (view result) ∧
        ∀ wildcard ∈ x.start.wildcardImports, result.WildcardQuiet wildcard := by
  have hclimbs := climbs_sweep hx.climbs_wildcards
  have hends : ∃ fuel result, propagateWildcards fuel b = .done result ∧
      (Within x result ∧ totalHeight x (view b) ≤ totalHeight x (view result)) ∧
        ∀ wildcard ∈ x.start.wildcardImports, result.WildcardQuiet wildcard := by
    refine untilStable_ends (fun s => maxHeight x - totalHeight x (view s))
      fuelIrrelevant_wildcardPass (fun s hs => ?_) b ⟨h, le_rfl⟩
    obtain ⟨hs, hle⟩ := hs
    have hnext := hclimbs.keeps s hs
    refine ⟨0, (sweep propagateWildcard s x.start.wildcardImports).1,
      (sweep propagateWildcard s x.start.wildcardImports).2, by rw [← hs.wildcards],
      ⟨hnext, hle.trans (hclimbs.le hs)⟩, fun hchanged => ?_, fun hquiet wildcard hwildcard => ?_⟩
    · have hlt := hclimbs.climbs s hs hchanged
      have hbound := hnext.totalHeight_le
      omega
    · have hsame := hclimbs.stays s hs hquiet
      have hstep := (sweep_quiet_iff hx.climbs_wildcards hs).mp hquiet wildcard hwildcard
      refine (hs.congr_view hnext hsame.symm wildcard).mp ?_
      exact (hs.propagateWildcard_quiet (hx.wildcards wildcard hwildcard)).mp hstep
  obtain ⟨fuel, result, hrun, ⟨hresult, hle⟩, hquiet⟩ := hends
  exact ⟨fuel, result, hrun, hresult, hle, hquiet⟩

theorem fuelIrrelevant_propagateRound (pendingBindings : List PendingBinding) :
    FuelIrrelevant (propagateRound pendingBindings) := by
  intro fuel b r hr more
  rw [propagateRound] at hr ⊢
  split at hr
  · next stable hstable =>
    rw [fuelIrrelevant_propagateWildcards fuel b stable hstable more]
    exact hr
  · cases hr
  · cases hr

/-- Both loops end, in a state where no import has anything to add. -/
theorem propagateBindings_ends (hx : x.Covers pendingBindings) {b : PythonBindings}
    (h : Within x b) : ∃ fuel result, propagateBindings pendingBindings fuel b = .done result ∧
      Within x result ∧ (∀ wildcard ∈ x.start.wildcardImports, result.WildcardQuiet wildcard) ∧
        ∀ pending ∈ pendingBindings, result.PendingQuiet pending := by
  have hpass : ∀ s, Within x s → ∃ fuel next changed,
      propagateRound pendingBindings fuel s = .done (next, changed) ∧ Within x next ∧
        (changed = true → maxHeight x - totalHeight x (view next) <
          maxHeight x - totalHeight x (view s)) ∧
        (changed = false → (∀ wildcard ∈ x.start.wildcardImports, next.WildcardQuiet wildcard) ∧
          ∀ pending ∈ pendingBindings, next.PendingQuiet pending) := by
    intro s hs
    obtain ⟨fuel, stable, hrun, hstable, hle, hwildcards⟩ := propagateWildcards_ends hx hs
    have hclimbs := climbs_sweep hx.climbs_pending
    have hnext := hclimbs.keeps stable hstable
    refine ⟨fuel, _, _, by rw [propagateRound, hrun], hnext, fun hchanged => ?_, fun hquiet => ?_⟩
    · have hlt := hclimbs.climbs stable hstable hchanged
      have hbound := hnext.totalHeight_le
      omega
    · have hsame := hclimbs.stays stable hstable hquiet
      refine ⟨fun wildcard hwildcard => ?_, fun pending hpending => ?_⟩
      · exact (hstable.congr_view hnext hsame.symm wildcard).mp (hwildcards wildcard hwildcard)
      · have hstep := (sweep_quiet_iff hx.climbs_pending hstable).mp hquiet pending hpending
        refine (pendingQuiet_congr hsame.symm pending).mp ?_
        exact (hstable.propagatePending_quiet (hx.owners pending hpending)
          (hx.names pending hpending)).mp hstep
  exact untilStable_ends (fun s => maxHeight x - totalHeight x (view s))
    (fuelIrrelevant_propagateRound pendingBindings) hpass b h

/-! ## What may be met -/

def aliasList (b : PythonBindings) : List (Moniker × Bytes × BindingTarget) :=
  b.aliases.entries.flatMap fun e => e.2.entries.map fun f => (e.1, f.1, f.2)

theorem mem_aliasList {b : PythonBindings} {owner : Moniker} {name : Bytes}
    {target : BindingTarget} (h : b.aliasOf owner name = some target) :
    (owner, name, target) ∈ b.aliasList := by
  obtain ⟨aliases, howner, hname⟩ := Option.bind_eq_some_iff.mp h
  refine mem_flatMap.mpr ⟨⟨owner, aliases⟩, AList.mem_lookup_iff.mp howner, ?_⟩
  exact mem_map.mpr ⟨⟨name, target⟩, AList.mem_lookup_iff.mp hname, rfl⟩

/-- All owners, names and symbols of some bindings and of what is pending. -/
def bounds (b : PythonBindings) (pendingBindings : List PendingBinding) : Bounds where
  owners := (b.aliasList.map (·.1) ++ b.wildcardImports.map (·.owner) ++
    pendingBindings.flatMap (·.owners)).toFinset ∪ b.dynamicWildcardOwners
  names := (b.aliasList.map (·.2.1) ++ pendingBindings.map (·.name)).toFinset
  symbols := OrdSet.ofList (b.aliasList.flatMap fun e => e.2.2.workspaceCandidates.elems)
  start := b

theorem within_bounds (pendingBindings : List PendingBinding) :
    Within (b.bounds pendingBindings) b where
  wildcards := rfl
  policies := rfl
  aliases {owner name target} h := by
    have hmem := mem_aliasList h
    refine ⟨?_, ?_, fun o ho => ?_⟩
    · refine Finset.mem_union_left _ (mem_toFinset.mpr ?_)
      exact mem_append_left _ (mem_append_left _ (mem_map.mpr ⟨_, hmem, rfl⟩))
    · exact mem_toFinset.mpr (mem_append_left _ (mem_map.mpr ⟨_, hmem, rfl⟩))
    · exact OrdSet.mem_ofList.mpr (mem_flatMap.mpr ⟨_, hmem, ho⟩)
  dynamic := Finset.subset_union_right

theorem covers_bounds (pendingBindings : List PendingBinding) :
    (b.bounds pendingBindings).Covers pendingBindings where
  wildcards wildcard h := by
    refine Finset.mem_union_left _ (mem_toFinset.mpr ?_)
    exact mem_append_left _ (mem_append_right _ (mem_map.mpr ⟨_, h, rfl⟩))
  owners pending hpending owner howner := by
    refine Finset.mem_union_left _ (mem_toFinset.mpr ?_)
    exact mem_append_right _ (mem_flatMap.mpr ⟨pending, hpending, howner⟩)
  names pending hpending :=
    mem_toFinset.mpr (mem_append_right _ (mem_map.mpr ⟨pending, hpending, rfl⟩))

/-! ## Closed bindings -/

/-- No import adds or changes an alias : neither what the loops do for it, nor a merge of what the
target of a wildcard import exports or of what a pending binding binds. And each alias that a
pending binding or an import brings is there. -/
structure Closed (b : PythonBindings) (pendingBindings : List PendingBinding) : Prop where
  wildcard : ∀ wildcard ∈ b.wildcardImports, ∀ owner name,
    (b.propagateWildcard wildcard).1.aliasOf owner name = b.aliasOf owner name
  exported : ∀ wildcard ∈ b.wildcardImports, wildcard.external = none →
    b.isDynamic wildcard.target = false → ∀ e ∈ b.exportedAliases wildcard.target, ∀ owner name,
      (b.mergeAlias wildcard.owner e.1 e.2).1.aliasOf owner name = b.aliasOf owner name
  pending : ∀ pending ∈ pendingBindings, ∀ target, b.pendingTarget pending = some target →
    ∀ pendingOwner ∈ pending.owners, ∀ owner name,
      (b.mergeAlias pendingOwner pending.name target).1.aliasOf owner name = b.aliasOf owner name
  imported : ∀ wildcard ∈ b.wildcardImports, b.WildcardQuiet wildcard
  bound : ∀ pending ∈ pendingBindings, b.PendingQuiet pending

theorem aliasOf_of_quiet {b : PythonBindings} {owner : Moniker} {name : Bytes}
    {target : BindingTarget} (h : b.aliasOf owner name = some (b.merged owner name target))
    (owner' : Moniker) (name' : Bytes) :
    (b.mergeAlias owner name target).1.aliasOf owner' name' = b.aliasOf owner' name' := by
  rw [aliasOf_mergeAlias]
  split_ifs with hkey
  · rw [hkey.1, hkey.2, h]
  · rfl

theorem closed_of_quiet (hx : x.Covers pendingBindings) {b : PythonBindings} (h : Within x b)
    (hwildcards : ∀ wildcard ∈ x.start.wildcardImports, b.WildcardQuiet wildcard)
    (hpending : ∀ pending ∈ pendingBindings, b.PendingQuiet pending) :
    b.Closed pendingBindings where
  wildcard wildcard hwildcard owner name := by
    rw [h.wildcards] at hwildcard
    have hquiet := (h.propagateWildcard_quiet (hx.wildcards wildcard hwildcard)).mpr
      (hwildcards wildcard hwildcard)
    have hview := (hx.climbs_wildcards wildcard hwildcard).stays b h hquiet
    exact congrFun (congrArg Prod.fst hview) (owner, name)
  exported wildcard hwildcard hexternal hdynamic e he owner name := by
    rw [h.wildcards] at hwildcard
    rcases hwildcards wildcard hwildcard with hquiet | hquiet
    · simp [hexternal] at hquiet
    · rw [if_neg (by simp [hdynamic])] at hquiet
      obtain ⟨halias, hexport⟩ := mem_exportedAliases.mp he
      exact aliasOf_of_quiet (hquiet e halias hexport) owner name
  pending pending hin target htarget pendingOwner hpendingOwner owner name :=
    aliasOf_of_quiet (hpending pending hin target htarget pendingOwner hpendingOwner) owner name
  imported wildcard hwildcard := hwildcards wildcard (h.wildcards ▸ hwildcard)
  bound := hpending

/-- Merging goes up and is done after one time. Whatever the decisions record, the loops end, and
nothing is left to add. Only a position past the end stops the program before them. -/
theorem build_closed (m : CodeIndexMaterial) (c : CandidateCatalog)
    (decisions : List EvidencedDecision) (references : List IndexedReference)
    (decisionIndices : List ℕ) :
    (∀ a b : BindingTarget, a ≤ a.merge b ∧ (a.merge b).merge b = a.merge b) ∧
    match recordDecisions m decisions references decisionIndices
        (empty.seedModuleDefinitions m c, []) with
    | none => ∀ fuel, build m c decisions references decisionIndices fuel = .panic
    | some (recorded, pendingBindings) => ∃ fuel result,
        build m c decisions references decisionIndices fuel = .done result ∧
          result.wildcardImports = recorded.wildcardImports ∧ result.Closed pendingBindings := by
  refine ⟨fun a b => ⟨a.le_merge b, a.merge_merge b⟩, ?_⟩
  split
  · next hnone =>
    intro fuel
    rw [build, hnone]
  · next recorded pendingBindings hrecorded =>
    have hx := covers_bounds recorded pendingBindings
    obtain ⟨fuel, result, hrun, hresult, hwildcards, hpending⟩ :=
      propagateBindings_ends hx (within_bounds recorded pendingBindings)
    refine ⟨fuel, result, ?_, hresult.wildcards, closed_of_quiet hx hresult hwildcards hpending⟩
    rw [build, hrecorded]
    exact hrun

end PythonBindings

end CodeMoniker
