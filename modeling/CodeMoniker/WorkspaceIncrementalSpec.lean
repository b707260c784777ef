import CodeMoniker.WorkspaceIncremental

/-!
# Incremental evaluation against full evaluation

The groups of the previous evaluation are updated key by key : only the rule of a key touches
the group there (`get?_foldl_applyRule`), and a group without a dirty member stays what it was
(`groupMembers_of_unchanged`).

`evaluateIncremental_agrees_iff` : violation sets, groups and violations are those of a full
evaluation if and only if no symbol that the diff leaves alone is taken for one that it lists.
The test `assert_equivalent` of the source asks for it without a condition, and it fails where
two files declare one identity (`evaluateIncremental_namesake`).
-/

namespace CodeMoniker

open List StableSort OrdSet

/-! ## Groups by key -/

/-- The group of a rule at a key, if it has a member. -/
def groupAt (x : SymbolInventoryIndex) (u : SymbolSet) (rule : CompiledWorkspaceGroupRule)
    (k : ScopeKey) : Option WorkspaceGroupResult :=
  if groupMembers x u rule k = ∅ then none
  else some (groupResult x rule k (groupMembers x u rule k))

section GroupAt

variable {x y : SymbolInventoryIndex} {u v : SymbolSet} {rule : CompiledWorkspaceGroupRule}
  {k : ScopeKey} {g : WorkspaceGroupResult}

theorem groupAt_eq_some : groupAt x u rule k = some g ↔ g ∈ groupResults x u rule ∧ g.key = k := by
  rw [mem_groupResults]
  unfold groupAt
  split_ifs with hempty
  · simp only [false_iff, not_and]
    rintro ⟨hne, -⟩ rfl
    exact hne hempty
  · rw [Option.some.injEq]
    constructor
    · rintro rfl
      exact ⟨⟨hempty, rfl⟩, rfl⟩
    · rintro ⟨⟨-, hg⟩, rfl⟩
      exact hg.symm

theorem mem_groupResults_of_ne (h : groupMembers x u rule k ≠ ∅) :
    groupResult x rule k (groupMembers x u rule k) ∈ groupResults x u rule :=
  mem_groupResults.mpr ⟨h, rfl⟩

theorem members_groupAt : ((groupAt x u rule k).map (·.members)).getD ∅ = groupMembers x u rule k := by
  unfold groupAt
  split_ifs with hempty
  · simp [hempty]
  · rfl

theorem groupAt_congr (hmembers : groupMembers x u rule k = groupMembers y v rule k)
    (hrecord : ∀ o ∈ groupMembers y v rule k, x.record o = y.record o) :
    groupAt x u rule k = groupAt y v rule k := by
  unfold groupAt
  rw [hmembers, groupResult_congr hrecord]

variable {rules : List CompiledWorkspaceGroupRule}

/-- The keys of all groups are distinct if the ids of their rules are. -/
theorem nodup_groupKeys (hids : (rules.map (·.ruleId)).Nodup) :
    ((rules.flatMap (groupResults x u)).map (·.key)).Nodup := by
  refine pairwise_map.mpr (pairwise_flatMap.mpr ⟨fun rule _ => ?_, ?_⟩)
  · exact sorted_groupResults.imp fun h => h.ne
  · refine (pairwise_map.mp hids).imp fun hne g hg g' hg' hkey => hne ?_
    rw [← ruleId_of_mem_groupResults hg, hkey, ruleId_of_mem_groupResults hg']

theorem rule_unique (hids : (rules.map (·.ruleId)).Nodup) {a b : CompiledWorkspaceGroupRule}
    (ha : a ∈ rules) (hb : b ∈ rules) (h : a.ruleId = b.ruleId) : a = b :=
  inj_on_of_nodup_map hids ha hb h

theorem get?_index (hids : (rules.map (·.ruleId)).Nodup)
    (hrule : rule ∈ rules) (hk : k.ruleId = rule.ruleId) :
    (OrdMap.ofList ((rules.flatMap (groupResults x u)).map fun g => (g.key, g))).get? k =
      groupAt x u rule k := by
  have hnodup : (((rules.flatMap (groupResults x u)).map fun g => (g.key, g)).map (·.1)).Nodup := by
    rw [map_map]
    exact nodup_groupKeys hids
  ext g
  rw [OrdMap.get?_ofList_of_nodup hnodup, groupAt_eq_some]
  simp only [mem_map, Prod.mk.injEq, mem_flatMap]
  constructor
  · rintro ⟨g', ⟨rule', hrule', hg'⟩, rfl, rfl⟩
    rw [ruleId_of_mem_groupResults hg'] at hk
    exact ⟨rule_unique hids hrule' hrule hk ▸ hg', rfl⟩
  · rintro ⟨hg, rfl⟩
    exact ⟨g, ⟨rule, hrule, hg⟩, rfl, rfl⟩

theorem get?_index_of_ne (hk : ∀ rule ∈ rules, rule.ruleId ≠ k.ruleId) :
    (OrdMap.ofList ((rules.flatMap (groupResults x u)).map fun g => (g.key, g))).get? k = none := by
  rw [OrdMap.get?_ofList_map, Option.map_eq_none_iff, find?_eq_none]
  intro g hg
  obtain ⟨rule, hrule, hg⟩ := mem_flatMap.mp (mem_reverse.mp hg)
  have hid := ruleId_of_mem_groupResults hg
  simp only [decide_eq_true_eq]
  rintro rfl
  exact hk rule hrule hid.symm

end GroupAt

namespace WorkspaceIncrementalInput

/-! ## The update of one rule -/

section Update

variable (i : WorkspaceIncrementalInput)

def changedKeys (rule : CompiledWorkspaceGroupRule) : OrdSet ScopeKey :=
  OrdSet.ofList ((groupBuckets i.previous.inventory i.previousDirty rule).keys ++
    (groupBuckets i.current.inventory i.currentDirty rule).keys)

/-- The groups after a rule has updated those with a dirty member. -/
def applyRule (next : OrdMap ScopeKey WorkspaceGroupResult) (rule : CompiledWorkspaceGroupRule) :
    OrdMap ScopeKey WorkspaceGroupResult :=
  (i.changedKeys rule).elems.foldl (updateGroup i.current i.previousDirty rule
    (groupBuckets i.current.inventory i.currentDirty rule)) next

/-- What a rule makes of the group at a key. -/
def updatedGroup (rule : CompiledWorkspaceGroupRule) (old : Option WorkspaceGroupResult)
    (k : ScopeKey) : Option WorkspaceGroupResult :=
  let members := updatedMembers i.current i.previousDirty ((old.map (·.members)).getD ∅)
    (groupMembers i.current.inventory i.currentDirty rule k)
  if members = ∅ then none else some (groupResult i.current.inventory rule k members)

variable {i} {rule : CompiledWorkspaceGroupRule} {k : ScopeKey}
  {next : OrdMap ScopeKey WorkspaceGroupResult}

theorem mem_changedKeys : k ∈ i.changedKeys rule ↔
    groupMembers i.previous.inventory i.previousDirty rule k ≠ ∅ ∨
      groupMembers i.current.inventory i.currentDirty rule k ≠ ∅ := by
  simp only [changedKeys, mem_ofList, mem_append, mem_keys_groupBuckets]

theorem ruleId_of_mem_changedKeys (h : k ∈ i.changedKeys rule) : k.ruleId = rule.ruleId := by
  rcases mem_changedKeys.mp h with h | h
  · exact ruleId_of_groupMembers_ne h
  · exact ruleId_of_groupMembers_ne h

theorem get?_updateGroup {key : ScopeKey} :
    (updateGroup i.current i.previousDirty rule (groupBuckets i.current.inventory i.currentDirty rule)
        next key).get? k =
      if k = key then i.updatedGroup rule (next.get? k) k else next.get? k := by
  unfold updateGroup updatedGroup
  rw [getD_groupBuckets]
  by_cases hk : k = key
  · subst hk
    rw [if_pos rfl]
    dsimp only
    split_ifs <;> simp
  · rw [if_neg hk]
    dsimp only
    split_ifs <;> simp [hk]

theorem get?_applyRule : (i.applyRule next rule).get? k =
    if k ∈ i.changedKeys rule then i.updatedGroup rule (next.get? k) k else next.get? k := by
  -- Each key is updated once, from what stood there before.
  have hfold : ∀ (ks : List ScopeKey) (next : OrdMap ScopeKey WorkspaceGroupResult), ks.Nodup →
      (ks.foldl (updateGroup i.current i.previousDirty rule
        (groupBuckets i.current.inventory i.currentDirty rule)) next).get? k =
        if k ∈ ks then i.updatedGroup rule (next.get? k) k else next.get? k := by
    intro ks
    induction ks with
    | nil => simp
    | cons key ks ih =>
      intro next hnodup
      obtain ⟨hkey, hks⟩ := nodup_cons.mp hnodup
      rw [foldl_cons, ih _ hks, get?_updateGroup]
      by_cases hk : k = key
      · subst hk
        simp [hkey]
      · simp [hk]
  exact (hfold _ next (i.changedKeys rule).nodup).trans (if_congr mem_elems rfl rfl)

theorem get?_applyRule_of_ne (h : rule.ruleId ≠ k.ruleId) :
    (i.applyRule next rule).get? k = next.get? k := by
  rw [get?_applyRule, if_neg fun hk => h (ruleId_of_mem_changedKeys hk).symm]

theorem get?_foldl_applyRule_of_ne : ∀ {rules : List CompiledWorkspaceGroupRule}
    {next : OrdMap ScopeKey WorkspaceGroupResult}, (∀ rule ∈ rules, rule.ruleId ≠ k.ruleId) →
    (rules.foldl i.applyRule next).get? k = next.get? k
  | [], _, _ => rfl
  | rule :: rules, next, h => by
    rw [foldl_cons, get?_foldl_applyRule_of_ne fun r hr => h r (mem_cons_of_mem _ hr),
      get?_applyRule_of_ne (h rule mem_cons_self)]

/-- Only the rule of a key touches the group there. -/
theorem get?_foldl_applyRule : ∀ {rules : List CompiledWorkspaceGroupRule}
    {next : OrdMap ScopeKey WorkspaceGroupResult}, (rules.map (·.ruleId)).Nodup → rule ∈ rules →
    k.ruleId = rule.ruleId → (rules.foldl i.applyRule next).get? k = (i.applyRule next rule).get? k
  | [], _, _, hrule, _ => by simp at hrule
  | r :: rules, next, hids, hrule, hk => by
    obtain ⟨hr, hids'⟩ := nodup_cons.mp hids
    have hne : ∀ r' ∈ rules, r'.ruleId ≠ r.ruleId := fun r' hr' heq =>
      hr (mem_map.mpr ⟨r', hr', heq⟩)
    rw [foldl_cons]
    rcases mem_cons.mp hrule with rfl | hmem
    · exact get?_foldl_applyRule_of_ne fun r' hr' => hk ▸ hne r' hr'
    · have hskip : (i.applyRule next r).get? k = next.get? k :=
        get?_applyRule_of_ne fun heq => hne rule hmem (heq.trans hk).symm
      rw [get?_foldl_applyRule hids' hmem hk, get?_applyRule, hskip, ← get?_applyRule]

end Update

/-! ## The update of all rules -/

section Groups

variable {i : WorkspaceIncrementalInput} {rule : CompiledWorkspaceGroupRule} {k : ScopeKey}
  {o : SymbolOrdinal} {r : InventorySymbol}

theorem previousDirty_inter : i.previousDirty ∩ i.previous.symbols = i.previousDirty := by
  ext o
  rw [mem_inter]
  exact ⟨And.left, fun h => ⟨h, (mem_inter.mp h).2⟩⟩

theorem currentDirty_inter : i.currentDirty ∩ i.current.symbols = i.currentDirty := by
  ext o
  rw [mem_inter]
  exact ⟨And.left, fun h => ⟨h, (mem_inter.mp h).2⟩⟩

/-- The caches of the loop answer the atoms of the plan. -/
theorem next_foldl_updateGroupRule : ∀ {rules : List CompiledWorkspaceGroupRule}
    {s : GroupIncrementalState}, (∀ rule ∈ rules, ∀ a ∈ rule.members.atoms, a ∈ i.compiled.atoms) →
    s.previousCache.Answers i.previous.inventory i.previousDirty i.compiled.atoms →
    s.currentCache.Answers i.current.inventory i.currentDirty i.compiled.atoms →
    (rules.foldl (updateGroupRule i.previous i.current i.previousDirty i.currentDirty) s).next =
      rules.foldl i.applyRule s.next
  | [], _, _, _, _ => rfl
  | rule :: rules, s, hsub, hp, hc => by
    have ht : Textual i.compiled.atoms := i.compiled.textual
    have hrule := hsub rule mem_cons_self
    obtain ⟨hpset, hp'⟩ := nodePost previousDirty_listed ht rule.members s.previousCache hrule hp
    obtain ⟨hcset, hc'⟩ := nodePost currentDirty_listed ht rule.members s.currentCache hrule hc
    rw [foldl_cons, foldl_cons, next_foldl_updateGroupRule]
    · congr 1
      simp only [updateGroupRule, previousDirty_inter, currentDirty_inter, hpset, hcset]
      rfl
    · exact fun rule hrule => hsub rule (mem_cons_of_mem _ hrule)
    · simpa only [updateGroupRule, previousDirty_inter] using hp'
    · simpa only [updateGroupRule, currentDirty_inter] using hc'

/-- The groups of the incremental evaluation, by key. -/
def finalGroups (i : WorkspaceIncrementalInput) : OrdMap ScopeKey WorkspaceGroupResult :=
  i.compiled.group.foldl i.applyRule (indexGroupResults i.evaluation)

theorem evaluateGroups_groups : i.evaluateGroups.1 = i.finalGroups.values := by
  unfold evaluateGroups evaluateGroupsIncremental
  dsimp only
  rw [next_foldl_updateGroupRule _ AtomCache.answers_empty AtomCache.answers_empty]
  · rfl
  · exact fun rule hrule a ha => mem_append_right _ (mem_flatMap.mpr ⟨rule, hrule, ha⟩)

variable {report : Bool}
  (hprev : i.evaluation =
    evaluateWorkspaceRulesIn i.previous.inventory i.previous.symbols report i.compiled)
  (hids : (i.compiled.group.map (·.ruleId)).Nodup)
  (hdiff : i.diff.Complete i.previous i.current)

include hprev hids in
theorem get?_finalGroups (hrule : rule ∈ i.compiled.group) (hk : k.ruleId = rule.ruleId) :
    i.finalGroups.get? k = if k ∈ i.changedKeys rule then
        i.updatedGroup rule (groupAt i.previous.inventory i.previous.symbols rule k) k
      else groupAt i.previous.inventory i.previous.symbols rule k := by
  rw [finalGroups, get?_foldl_applyRule hids hrule hk, get?_applyRule, indexGroupResults, hprev,
    evaluateIn_groups i.previous.listed, get?_index hids hrule hk]

include hprev in
theorem get?_finalGroups_of_ne (hk : ∀ rule ∈ i.compiled.group, rule.ruleId ≠ k.ruleId) :
    i.finalGroups.get? k = none := by
  rw [finalGroups, get?_foldl_applyRule_of_ne hk, indexGroupResults, hprev,
    evaluateIn_groups i.previous.listed, get?_index_of_ne hk]

include hprev hids in
theorem key_of_get?_finalGroups {g : WorkspaceGroupResult} (h : i.finalGroups.get? k = some g) :
    g.key = k := by
  by_cases hk : ∀ rule ∈ i.compiled.group, rule.ruleId ≠ k.ruleId
  · rw [get?_finalGroups_of_ne hprev hk] at h
    simp at h
  · push Not at hk
    obtain ⟨rule, hrule, hk⟩ := hk
    rw [get?_finalGroups hprev hids hrule hk.symm] at h
    split_ifs at h
    · unfold updatedGroup at h
      dsimp only at h
      split_ifs at h
      obtain rfl := Option.some.inj h
      rfl
    · exact (groupAt_eq_some.mp h).2

include hdiff in
/-- The update of an affected group finds its members. -/
theorem updatedMembers_eq (hund : i.Undisturbed) (hrule : rule ∈ i.compiled.group) :
    updatedMembers i.current i.previousDirty
        (groupMembers i.previous.inventory i.previous.symbols rule k)
        (groupMembers i.current.inventory i.currentDirty rule k) =
      groupMembers i.current.inventory i.current.symbols rule k := by
  ext o
  simp only [updatedMembers, mem_union, mem_inter, mem_sdiff, mem_groupMembers]
  constructor
  · rintro (⟨⟨⟨ho, r, hr, hsat, hkey⟩, hd⟩, hcur⟩ | ⟨hd, r, hr, hsat, hkey⟩)
    · exact ⟨hcur, r, (after_of_not_dirty hdiff ho hr hd).2, hsat, hkey⟩
    · exact ⟨(mem_inter.mp hd).2, r, hr, hsat, hkey⟩
  · rintro ⟨hcur, r, hr, hsat, hkey⟩
    by_cases hd : o ∈ i.currentDirty
    · exact Or.inr ⟨hd, r, hr, hsat, hkey⟩
    · have hkept := kept_of_not_dirty hcur hr hd
      obtain ⟨hmem, hr'⟩ := hkept.before hdiff
      refine Or.inl ⟨⟨⟨hmem, r, hr', hsat, hkey⟩, fun hd' => ?_⟩, hcur⟩
      have hsat' := hund.members o r hkept ((mem_previousDirty hr').mp hd').2 rule hrule
      rw [hsat] at hsat'
      exact Bool.noConfusion hsat'

include hdiff in
/-- A group without a dirty member has the same members in both views. -/
theorem groupMembers_of_unchanged (hk : k ∉ i.changedKeys rule) :
    groupMembers i.previous.inventory i.previous.symbols rule k =
        groupMembers i.current.inventory i.current.symbols rule k ∧
      ∀ o ∈ groupMembers i.current.inventory i.current.symbols rule k,
        i.previous.inventory.record o = i.current.inventory.record o := by
  rw [mem_changedKeys, not_or, not_not, not_not, eq_empty_iff, eq_empty_iff] at hk
  have hkept : ∀ o ∈ groupMembers i.current.inventory i.current.symbols rule k, ∀ r,
      i.current.inventory.record o = some r → i.Kept o r := by
    intro o ho r hr
    obtain ⟨hcur, r', hr', hsat⟩ := mem_groupMembers.mp ho
    exact kept_of_not_dirty hcur hr fun hd => hk.2 o (mem_groupMembers.mpr ⟨hd, r', hr', hsat⟩)
  constructor
  · ext o
    constructor
    · intro ho
      obtain ⟨hmem, r, hr, hsat⟩ := mem_groupMembers.mp ho
      have hd : o ∉ i.previousDirty := fun hd => hk.1 o (mem_groupMembers.mpr ⟨hd, r, hr, hsat⟩)
      obtain ⟨hcur, hr'⟩ := after_of_not_dirty hdiff hmem hr hd
      exact mem_groupMembers.mpr ⟨hcur, r, hr', hsat⟩
    · intro ho
      obtain ⟨hcur, r, hr, hsat⟩ := mem_groupMembers.mp ho
      obtain ⟨hmem, hr'⟩ := (hkept o ho r hr).before hdiff
      exact mem_groupMembers.mpr ⟨hmem, r, hr', hsat⟩
  · intro o ho
    obtain ⟨hcur, r, hr, -⟩ := mem_groupMembers.mp ho
    rw [hr, ((hkept o ho r hr).before hdiff).2]

include hprev hids hdiff in
theorem get?_finalGroups_eq_groupAt (hund : i.Undisturbed) (hrule : rule ∈ i.compiled.group)
    (hk : k.ruleId = rule.ruleId) :
    i.finalGroups.get? k = groupAt i.current.inventory i.current.symbols rule k := by
  rw [get?_finalGroups hprev hids hrule hk]
  split_ifs with hchanged
  · rw [updatedGroup, members_groupAt, updatedMembers_eq hdiff hund hrule]
    rfl
  · obtain ⟨hmembers, hrecord⟩ := groupMembers_of_unchanged hdiff hchanged
    exact groupAt_congr hmembers hrecord

/-- The groups of a full evaluation are in the order of their keys. -/
theorem sorted_groups (hund : i.Undisturbed) :
    (i.compiled.group.flatMap (groupResults i.current.inventory i.current.symbols)).Pairwise
      (·.key < ·.key) := by
  refine pairwise_flatMap.mpr ⟨fun _ _ => sorted_groupResults, ?_⟩
  refine hund.order.imp fun horder g hg g' hg' => ScopeKey.lt_of_ruleId_lt ?_
  have hselects : ∀ {rule g}, g ∈ groupResults i.current.inventory i.current.symbols rule →
      i.Selects rule := by
    intro rule g hg
    obtain ⟨o, ho⟩ := ne_empty_iff.mp (mem_groupResults.mp hg).1
    obtain ⟨hmem, r, hr, hsat, -⟩ := mem_groupMembers.mp ho
    exact ⟨o, hmem, r, hr, hsat⟩
  rw [ruleId_of_mem_groupResults hg, ruleId_of_mem_groupResults hg']
  exact horder (hselects hg) (hselects hg')

include hprev hids hdiff in
theorem evaluateGroups_eq (hund : i.Undisturbed) : i.evaluateGroups.1 =
    i.compiled.group.flatMap (groupResults i.current.inventory i.current.symbols) := by
  rw [evaluateGroups_groups]
  refine OrdMap.values_eq_of_get? (sorted_groups hund) fun k g => ?_
  by_cases hk : ∀ rule ∈ i.compiled.group, rule.ruleId ≠ k.ruleId
  · rw [get?_finalGroups_of_ne hprev hk]
    simp only [reduceCtorEq, false_iff, not_and, mem_flatMap]
    rintro ⟨rule, hrule, hg⟩ rfl
    exact hk rule hrule (ruleId_of_mem_groupResults hg).symm
  · push Not at hk
    obtain ⟨rule, hrule, hk⟩ := hk
    rw [get?_finalGroups_eq_groupAt hprev hids hdiff hund hrule hk.symm, groupAt_eq_some,
      mem_flatMap]
    constructor
    · rintro ⟨hg, hkey⟩
      exact ⟨⟨rule, hrule, hg⟩, hkey⟩
    · rintro ⟨⟨rule', hrule', hg⟩, rfl⟩
      have hsame := rule_unique hids hrule' hrule
        ((ruleId_of_mem_groupResults hg).symm.trans hk.symm)
      exact ⟨hsame ▸ hg, rfl⟩

end Groups

/-! ## The two evaluations agree -/

/-- What the incremental evaluation answers and what it should. -/
def Agrees (i : WorkspaceIncrementalInput) (report : Bool) : Prop :=
  Same (evaluateWorkspaceRulesIncremental i).evaluation
    (evaluateWorkspaceRulesIn i.current.inventory i.current.symbols report i.compiled)

section Agreement

variable {i : WorkspaceIncrementalInput} {o : SymbolOrdinal} {r : InventorySymbol}

/-- With distinct ids every group finds its rule. -/
theorem groupDiagnostics_eq {x : SymbolInventoryIndex} {u : SymbolSet}
    {compiled : CompiledWorkspaceRules} (hids : (compiled.group.map (·.ruleId)).Nodup) :
    groupDiagnostics x compiled (compiled.group.flatMap (groupResults x u)) =
      compiled.group.flatMap (groupViolations x u) := by
  have hnodup : ((compiled.group.map fun rule => (rule.ruleId, rule)).map (·.1)).Nodup := by
    rw [map_map]
    exact hids
  unfold groupDiagnostics
  dsimp only
  rw [filter_flatMap, filterMap_flatMap]
  refine flatMap_congr fun rule hrule => filterMap_congr fun g hg => ?_
  have hfound : (OrdMap.ofList (compiled.group.map fun rule => (rule.ruleId, rule))).get?
      g.key.ruleId = some rule := by
    rw [OrdMap.get?_ofList_of_nodup hnodup, ruleId_of_mem_groupResults (mem_filter.mp hg).1]
    exact mem_map.mpr ⟨rule, hrule, rfl⟩
  rw [hfound]
  rfl

variable {report : Bool}
  (hprev : i.evaluation =
    evaluateWorkspaceRulesIn i.previous.inventory i.previous.symbols report i.compiled)
  (hplan : i.compiled.hasLinkageRules = false)
  (hids : (i.compiled.group.map (·.ruleId)).Nodup)
  (hdiff : i.diff.Complete i.previous i.current)

theorem incremental_violations : (evaluateWorkspaceRulesIncremental i).evaluation.violations =
    sortWorkspaceViolations (i.preserved ++ i.reevaluated ++ i.evaluateGroups.2.1) :=
  rfl

include hprev hplan hids hdiff in
theorem same_of_undisturbed (hund : i.Undisturbed) (report' : Bool) : i.Agrees report' := by
  have hrules := CompiledWorkspaceRules.inventoryRules_of_not_hasLinkageRules hplan
  have hgroups := evaluateGroups_eq hprev hids hdiff hund
  have hdiagnostics : i.evaluateGroups.2.1 =
      i.compiled.group.flatMap (groupViolations i.current.inventory i.current.symbols) := by
    rw [← groupDiagnostics_eq hids, ← hgroups]
    rfl
  constructor
  · rw [evaluateIn_violationSets i.current.listed]
    exact mergeViolationSets_eq hdiff hprev hplan hund
  · rw [evaluateIn_groups i.current.listed]
    exact hgroups
  · rw [incremental_violations, evaluateIn_violations i.current.listed, hrules, hdiagnostics]
    refine stableSort_eq_iff.mpr fun k => ?_
    obtain ⟨⟨ruleId, identity⟩, rfl⟩ := toLex.surjective k
    have hsymbols := filter_symbol_violations hprev hplan hdiff hund ruleId identity
    rw [filter_append (i.preserved ++ i.reevaluated), hsymbols, ← filter_append]

include hplan in
theorem mem_reevaluated {v : WorkspaceSymbolViolation} (h : v ∈ i.reevaluated) :
    ∃ o ∈ i.currentDirty, ∃ r, i.current.inventory.record o = some r ∧ v.symbol = some r.id := by
  have hrules := CompiledWorkspaceRules.inventoryRules_of_not_hasLinkageRules hplan
  rw [reevaluated, dirtyEvaluation, evaluateIn_violations i.currentDirty_listed, hrules,
    mem_filter, sortWorkspaceViolations, mem_stableSort, ← mem_filter,
    filter_sourceSuppression] at h
  obtain ⟨rule, -, h⟩ := mem_flatMap.mp h
  obtain ⟨r, hr, rfl⟩ := mem_map.mp h
  obtain ⟨o, ho, hr⟩ := mem_filterMap.mp hr
  exact ⟨o, (mem_violationSet.mp ho).1, r, hr, rfl⟩

theorem sourceSuppression_of_mem_evaluateGroups {v : WorkspaceSymbolViolation}
    (h : v ∈ i.evaluateGroups.2.1) : v.sourceSuppression = false := by
  obtain ⟨g, -, h⟩ := mem_filterMap.mp h
  simp only [groupViolation, Option.bind_eq_bind, Option.bind_eq_some_iff, Option.some.injEq] at h
  obtain ⟨rule, -, primary, -, rfl⟩ := h
  rfl

include hplan in
/-- The violation of a kept symbol can only come from the previous evaluation. -/
theorem mem_preserved_of_same {report' : Bool} (hsame : i.Agrees report')
    (hkept : i.Kept o r) {rule : CompiledWorkspaceSymbolRule} (hrule : rule ∈ i.compiled.symbol)
    (hsat : rule.root.satisfiedBy r = false) : symbolViolation rule r ∈ i.preserved := by
  have hrules := CompiledWorkspaceRules.inventoryRules_of_not_hasLinkageRules hplan
  have hfull : symbolViolation rule r ∈
      (evaluateWorkspaceRulesIn i.current.inventory i.current.symbols report'
        i.compiled).violations := by
    rw [evaluateIn_violations i.current.listed, hrules, sortWorkspaceViolations, mem_stableSort]
    refine mem_append_left _ (mem_flatMap.mpr ⟨rule, hrule, ?_⟩)
    refine mem_map.mpr ⟨r, mem_filterMap.mpr ⟨o, ?_, hkept.record⟩, rfl⟩
    exact mem_violationSet.mpr ⟨hkept.mem, r, hkept.record, hsat⟩
  rw [← hsame.violations, incremental_violations, sortWorkspaceViolations, mem_stableSort] at hfull
  rcases mem_append.mp hfull with hmem | hmem
  · rcases mem_append.mp hmem with hmem | hmem
    · exact hmem
    · obtain ⟨o', hd, r', hr', hid⟩ := mem_reevaluated hplan hmem
      obtain rfl := RuleView.ordinal_unique hkept.record hr' (Option.some.inj hid)
      exact absurd hd hkept.not_dirty
  · exact absurd (sourceSuppression_of_mem_evaluateGroups hmem) Bool.noConfusion

/-- A preserved violation has an identity that the diff does not list, and the first symbol
of its source with that identity. -/
theorem preserved_symbolViolation {rule : CompiledWorkspaceSymbolRule} (hkept : i.Kept o r)
    (h : symbolViolation rule r ∈ i.preserved) : ¬i.ListedIdentity r.identity ∧
      ∀ o' ∈ i.current.symbols, ∀ r', i.current.inventory.record o' = some r' →
        r'.identity = r.identity → r'.source = r.source → o ≤ o' := by
  obtain ⟨w, hw, hrelocate⟩ := mem_filterMap.mp h
  have hunlisted : w.violation.moniker ∉ i.dirtyIdentities := by
    simpa using (mem_filter.mp hw).2
  simp only [relocate, Option.bind_eq_bind, Option.bind_eq_some_iff, Option.some.injEq] at hrelocate
  obtain ⟨r', hrecord, heq⟩ := hrelocate
  obtain ⟨o', -, hr', -, hsource, hfirst⟩ := violationRecord_eq_some.mp hrecord
  have hmoniker : w.violation.moniker = r.identity := congrArg (·.violation.moniker) heq
  have hid : some r'.id = some r.id := congrArg (·.symbol) heq
  have hsrc : r'.source = r.source := congrArg (·.source) heq
  obtain rfl := RuleView.ordinal_unique hr' hkept.record (Option.some.inj hid)
  rw [hmoniker] at hunlisted hfirst
  rw [← hsource, hsrc] at hfirst
  exact ⟨mt mem_dirtyIdentities.mpr hunlisted, hfirst⟩

include hprev hids hdiff in
/-- A kept symbol of a modified identity drops out of its group. -/
theorem not_selected_of_same {report' : Bool} (hsame : i.Agrees report')
    (hkept : i.Kept o r) (hlists : i.diff.ListsBefore r) {rule : CompiledWorkspaceGroupRule}
    (hrule : rule ∈ i.compiled.group) : rule.members.satisfiedBy r = false := by
  by_contra hsat
  rw [Bool.not_eq_false] at hsat
  obtain ⟨hmem, hr⟩ := hkept.before hdiff
  have hdirty : o ∈ i.previousDirty := (mem_previousDirty hr).mpr ⟨hmem, hlists⟩
  have hcurrent : o ∈ groupMembers i.current.inventory i.current.symbols rule (rule.scopeKey r) :=
    mem_groupMembers.mpr ⟨hkept.mem, r, hkept.record, hsat, rfl⟩
  have hchanged : rule.scopeKey r ∈ i.changedKeys rule :=
    mem_changedKeys.mpr (Or.inl (ne_empty_iff.mpr
      ⟨o, mem_groupMembers.mpr ⟨hdirty, r, hr, hsat, rfl⟩⟩))
  -- The full evaluation has a group with the symbol, so the incremental one has it too.
  have hgroup : groupResult i.current.inventory rule (rule.scopeKey r)
      (groupMembers i.current.inventory i.current.symbols rule (rule.scopeKey r)) ∈
      i.finalGroups.values := by
    rw [← evaluateGroups_groups]
    have hgroups : i.evaluateGroups.1 = _ := hsame.groups
    rw [hgroups, evaluateIn_groups i.current.listed]
    exact mem_flatMap.mpr ⟨rule, hrule, mem_groupResults_of_ne (ne_empty_iff.mpr ⟨o, hcurrent⟩)⟩
  obtain ⟨k, hk⟩ := OrdMap.mem_values.mp hgroup
  obtain rfl : rule.scopeKey r = k := key_of_get?_finalGroups hprev hids hk
  rw [get?_finalGroups hprev hids hrule rfl, if_pos hchanged, updatedGroup, members_groupAt] at hk
  split_ifs at hk
  have hmembers := congrArg (·.members) (Option.some.inj hk)
  rw [← show _ = groupMembers i.current.inventory i.current.symbols rule (rule.scopeKey r) from
    hmembers] at hcurrent
  simp only [groupResult, updatedMembers, mem_union, mem_inter, mem_sdiff,
    mem_groupMembers] at hcurrent
  rcases hcurrent with ⟨⟨-, hclean⟩, -⟩ | ⟨hd, -⟩
  · exact hclean hdirty
  · exact hkept.not_dirty hd

include hprev hids in
theorem order_of_same {report' : Bool} (hsame : i.Agrees report') :
    i.compiled.group.Pairwise fun a b => i.Selects a → i.Selects b → a.ruleId < b.ruleId := by
  have hgroups : i.evaluateGroups.1 = _ := hsame.groups
  rw [evaluateGroups_groups, evaluateIn_groups i.current.listed] at hgroups
  have hsorted : i.finalGroups.values.Pairwise (·.key < ·.key) := by
    refine pairwise_map.mpr (i.finalGroups.sorted.imp_of_mem ?_)
    rintro ⟨k, g⟩ ⟨k', g'⟩ hg hg' hlt
    rwa [key_of_get?_finalGroups hprev hids (OrdMap.mem_entries.mp hg),
      key_of_get?_finalGroups hprev hids (OrdMap.mem_entries.mp hg')]
  have hresult : ∀ {rule}, i.Selects rule →
      ∃ g, g ∈ groupResults i.current.inventory i.current.symbols rule := by
    rintro rule ⟨o, ho, r, hr, hsat⟩
    exact ⟨_, mem_groupResults_of_ne (ne_empty_iff.mpr
      ⟨o, mem_groupMembers.mpr ⟨ho, r, hr, hsat, rfl⟩⟩)⟩
  rw [hgroups] at hsorted
  refine ((pairwise_flatMap.mp hsorted).2.and (pairwise_map.mp hids)).imp ?_
  rintro a b ⟨hlt, hne⟩ ha hb
  obtain ⟨g, hg⟩ := hresult ha
  obtain ⟨g', hg'⟩ := hresult hb
  have hle := ScopeKey.ruleId_le_of_lt (hlt g hg g' hg')
  rw [ruleId_of_mem_groupResults hg, ruleId_of_mem_groupResults hg'] at hle
  exact lt_of_le_of_ne hle hne

include hprev hplan hids hdiff in
theorem undisturbed_of_same {report' : Bool} (hsame : i.Agrees report') : i.Undisturbed where
  identity o r hkept hlisted rule hrule := by
    by_contra hsat
    rw [Bool.not_eq_true] at hsat
    have hmem := mem_preserved_of_same hplan hsame hkept hrule hsat
    exact (preserved_symbolViolation hkept hmem).1 hlisted
  first o r hkept hviolated := by
    obtain ⟨rule, hrule, hsat⟩ := hviolated
    exact (preserved_symbolViolation hkept (mem_preserved_of_same hplan hsame hkept hrule hsat)).2
  members o r hkept hlists rule hrule :=
    not_selected_of_same hprev hids hdiff hsame hkept hlists hrule
  order := order_of_same hprev hids hsame

end Agreement

/-- An incremental evaluation that follows a full one. -/
def afterFull (previous current : RuleView) (diff : CodeIndexGraphDiff)
    (compiled : CompiledWorkspaceRules) (report : Bool) : WorkspaceIncrementalInput where
  previous := previous
  current := current
  diff := diff
  compiled := compiled
  evaluation := evaluateWorkspaceRulesIn previous.inventory previous.symbols report compiled

/-- Incremental evaluation after a complete diff agrees with a full one if the group rules have
ids of their own and nothing is lost, and only if, among such rules, nothing is lost. -/
theorem evaluateIncremental_agrees_iff (previous current : RuleView) (diff : CodeIndexGraphDiff)
    (hdiff : diff.Complete previous current) (compiled : CompiledWorkspaceRules)
    (hplan : compiled.hasLinkageRules = false) (report report' : Bool) :
    ((compiled.group.map (·.ruleId)).Nodup ∧
        (afterFull previous current diff compiled report).Undisturbed →
      (afterFull previous current diff compiled report).Agrees report') ∧
    ((compiled.group.map (·.ruleId)).Nodup →
      (afterFull previous current diff compiled report).Agrees report' →
      (afterFull previous current diff compiled report).Undisturbed) :=
  ⟨fun ⟨hids, hund⟩ => same_of_undisturbed rfl hplan hids hdiff hund report',
    fun hids hsame => undisturbed_of_same rfl hplan hids hdiff hsame⟩

/-! ## Two classes of one file each -/

def javaClass (file : ℕ) (name visibility : String) : InventorySymbol where
  id := ⟨file, 0⟩
  source := file
  identity := "code+moniker://./lang:java/srcset:main/package:com/package:acme/class:" ++ name
  name := name
  kind := "class"
  shape := "type"
  visibility := visibility
  language := "java"
  sourcePath := if file = 0 then "billing/Invoice.java" else "sales/Invoice.java"
  sourceRoot := 0
  srcset := "main"
  lineRange := some (3, 3)
  navigable := true
  parent := none
  ancestors := []
  segments := [⟨"lang", "java"⟩, ⟨"srcset", "main"⟩, ⟨"package", "com"⟩, ⟨"package", "acme"⟩,
    ⟨"class", name⟩]

variable (name visibility : String)

def twoClasses : SymbolInventoryIndex :=
  (SymbolInventoryIndex.empty.insertRecord 0 zero_notMem_empty
    (javaClass 0 "Invoice" "private")).insertRecord 1 (by decide) (javaClass 1 name visibility)

theorem record_twoClasses {name visibility : String} {o : SymbolOrdinal} {r : InventorySymbol} :
    (twoClasses name visibility).record o = some r ↔
      o = 0 ∧ r = javaClass 0 "Invoice" "private" ∨ o = 1 ∧ r = javaClass 1 name visibility := by
  change AList.lookup o (((∅ : InventoryRecords).insert 0 (javaClass 0 "Invoice" "private")).insert 1
    (javaClass 1 name visibility)) = some r ↔ _
  by_cases h1 : o = 1
  · subst h1
    rw [AList.lookup_insert]
    simp [eq_comm]
  · rw [AList.lookup_insert_ne h1]
    by_cases h0 : o = 0
    · subst h0
      rw [AList.lookup_insert]
      simp [eq_comm]
    · rw [AList.lookup_insert_ne h0]
      simp [h0, h1]

theorem mem_twoClasses : 0 ∈ (twoClasses name visibility).allSymbols := by
  simp [twoClasses, SymbolInventoryIndex.insertRecord]

/-- A private class, and a second one with a name and a visibility. -/
def twoClassView : RuleView where
  inventory := twoClasses name visibility
  symbols := (twoClasses name visibility).allSymbols
  listed o ho := AList.lookup_isSome.mpr (((twoClasses name visibility).listed o).mp ho) |>
    Option.isSome_iff_exists.mp
  cataloged o r hr := by
    rcases record_twoClasses.mp hr with ⟨rfl, rfl⟩ | ⟨rfl, rfl⟩
    · rfl
    · rfl

def publicOnly : CompiledWorkspaceRules where
  symbol := [{
    ruleId := "workspace.symbol.public-only"
    rawExpr := "visibility = 'public'"
    root := .atom (.mk (.attr .visibility) .eq (.str "public") "visibility = 'public'" none)
    severity := .error
    message := none
    plan := .inventory }]
  group := []
  path := []
  minLinkageCoverage := 100
  textual := by
    intro a ha b hb _
    simp only [List.filter_cons, List.filter_nil, decide_true, if_true, List.flatMap_cons,
      List.flatMap_nil, Node.atoms, List.append_nil, List.mem_singleton] at ha hb
    rw [ha, hb]

/-- The second class has become public. -/
def publishedClass (name : String) : CodeIndexGraphDiff where
  modifiedSymbols := [⟨1, 0⟩]
  modifiedSymbolIdentities := [(javaClass 1 name "private").identity]

theorem publishedClass_complete (name : String) :
    (publishedClass name).Complete (twoClassView name "private") (twoClassView name "public") where
  before o ho r hr := by
    rcases record_twoClasses.mp hr with ⟨rfl, rfl⟩ | ⟨rfl, rfl⟩
    · exact Or.inr ⟨mem_twoClasses name "public", record_twoClasses.mpr (Or.inl ⟨rfl, rfl⟩)⟩
    · exact Or.inl (Or.inr (Or.inl (mem_singleton.mpr rfl)))
  after o ho r hr := by
    rcases record_twoClasses.mp hr with ⟨rfl, rfl⟩ | ⟨rfl, rfl⟩
    · exact Or.inr ⟨mem_twoClasses name "private", record_twoClasses.mpr (Or.inl ⟨rfl, rfl⟩)⟩
    · exact Or.inl (Or.inr (Or.inr (Or.inl (mem_singleton.mpr rfl))))

/-- Two files declare one class, and one of the declarations becomes public : the violation of
the other one is lost. -/
theorem evaluateIncremental_namesake :
    (publishedClass "Invoice").Complete (twoClassView "Invoice" "private")
        (twoClassView "Invoice" "public") ∧ publicOnly.hasLinkageRules = false ∧
      ¬(afterFull (twoClassView "Invoice" "private") (twoClassView "Invoice" "public")
        (publishedClass "Invoice") publicOnly false).Agrees false := by
  refine ⟨publishedClass_complete "Invoice", rfl, fun hsame => ?_⟩
  have hsets := hsame.violationSets
  revert hsets
  decide

/-- With a name of its own the second class disturbs nothing. -/
theorem undisturbed_order : (afterFull (twoClassView "Order" "private")
    (twoClassView "Order" "public") (publishedClass "Order") publicOnly false).Undisturbed := by
  have hkept : ∀ o r, (afterFull (twoClassView "Order" "private") (twoClassView "Order" "public")
      (publishedClass "Order") publicOnly false).Kept o r →
      o = 0 ∧ r = javaClass 0 "Invoice" "private" := by
    rintro o r ⟨-, hr, hunlisted⟩
    rcases record_twoClasses.mp hr with h | ⟨rfl, rfl⟩
    · exact h
    · exact absurd (Or.inr (Or.inr (Or.inl (mem_singleton.mpr rfl)))) hunlisted
  constructor
  · intro o r h hlisted
    obtain ⟨rfl, rfl⟩ := hkept o r h
    rcases hlisted with ⟨o, -, r, hr, hlists, hid⟩ | ⟨o, -, r, hr, hlists, hid⟩
    · rcases record_twoClasses.mp hr with ⟨rfl, rfl⟩ | ⟨rfl, rfl⟩
      · exact absurd hlists (by unfold CodeIndexGraphDiff.ListsBefore; decide)
      · exact absurd hid (by decide)
    · rcases record_twoClasses.mp hr with ⟨rfl, rfl⟩ | ⟨rfl, rfl⟩
      · exact absurd hlists (by unfold CodeIndexGraphDiff.ListsAfter; decide)
      · exact absurd hid (by decide)
  · intro o r h _ o' _ _ _ _ _
    obtain ⟨rfl, -⟩ := hkept o r h
    exact Nat.zero_le o'
  · intro _ _ _ _ rule hrule
    simp [afterFull, publicOnly] at hrule
  · exact List.Pairwise.nil

theorem evaluateIncremental_agrees_order :
    (afterFull (twoClassView "Order" "private") (twoClassView "Order" "public")
      (publishedClass "Order") publicOnly false).Agrees false :=
  (evaluateIncremental_agrees_iff _ _ _ (publishedClass_complete "Order") publicOnly rfl false
    false).1 ⟨nodup_nil, undisturbed_order⟩

end WorkspaceIncrementalInput

end CodeMoniker
