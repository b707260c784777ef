import CodeMoniker.Fragments

/-!
# What merging fragments does
-/

namespace CodeMoniker.Fragments

open List ByteCodec RefText
open AList (ext lookup_isSome mem_insert)
open Except (ok.inj)
open Option (isSome_iff_exists isSome_of_mem isSome_or)

/-- Every element of a list passes a check. -/
theorem forM_eq_ok {α ε : Type} {f : α → Except ε Unit} :
    ∀ {l : List α}, l.forM f = .ok () ↔ ∀ a ∈ l, f a = .ok ()
  | [] => by simp [List.forM, pure, Except.pure]
  | a :: l => by
    rw [List.forM, bind_eq_ok]
    constructor
    · rintro ⟨⟨⟩, ha, hl⟩
      exact forall_mem_cons.mpr ⟨ha, forM_eq_ok.mp hl⟩
    · intro h
      obtain ⟨ha, hl⟩ := forall_mem_cons.mp h
      exact ⟨(), ha, forM_eq_ok.mpr hl⟩

theorem mem_sortedNames {names : List Bytes} {name : Bytes} :
    name ∈ sortedNames names ↔ name ∈ names := StableSort.mem_stableSort

theorem isName_iff {name : Bytes} : IsName aliasGrammar name ↔ isAliasId name = true := by
  cases name with
  | nil => simp [IsName, isAliasId]
  | cons b rest => simp [IsName, isAliasId, aliasGrammar]

theorem isName_effectiveAliasId (fragment : Bytes) {name : Bytes} (h : IsName aliasGrammar name) :
    IsName aliasGrammar (effectiveAliasId (aliasNamespace fragment) name) := by
  refine ⟨by simp [effectiveAliasId, h.1], fun b hb => ?_⟩
  rw [effectiveAliasId, mem_append, mem_append] at hb
  rcases hb with (hb | hb) | hb
  · obtain ⟨c, -, rfl⟩ := mem_map.mp hb
    split_ifs with hc
    · exact hc
    · decide
  · have hbyte : byteString "_" = [0x5f] := by decide
    rw [hbyte, mem_singleton] at hb
    subst hb
    decide
  · exact h.2 b hb

theorem effectiveAliasId_injective (ns : Bytes) : Function.Injective (effectiveAliasId ns) :=
  fun _ _ h => append_cancel_left h

variable {localAliases : List Bytes}

/-- The aliases of a fragment after parsing. -/
theorem lookup_namespacedAliases {ns : Bytes} {aliases : Aliases}
    {name : Bytes} : (namespacedAliases localAliases ns aliases).lookup (effectiveAliasId ns name) =
      (aliases.lookup name).map (rewriteLocalAliasRefs localAliases ns) := by
  rw [namespacedAliases, AList.lookup_to_alist, AList.lookup]
  induction aliases.entries with
  | nil => rfl
  | cons e l ih =>
    obtain ⟨name', body⟩ := e
    rw [map_cons]
    by_cases hname : name = name'
    · subst hname
      rw [dlookup_cons_eq, dlookup_cons_eq, Option.map_some]
    · have hne := (effectiveAliasId_injective ns).ne hname
      exact (dlookup_cons_ne _ _ hne).trans
        (ih.trans (congrArg _ (dlookup_cons_ne l ⟨name', body⟩ hname).symm))

theorem mem_namespacedAliases {ns : Bytes} {aliases : Aliases}
    {name : Bytes} : name ∈ namespacedAliases localAliases ns aliases ↔
      ∃ n ∈ aliases, effectiveAliasId ns n = name := by
  constructor
  · intro h
    have hkey : name ∈ (aliases.entries.map fun e => (⟨effectiveAliasId ns e.1,
        rewriteLocalAliasRefs localAliases ns e.2⟩ : Sigma fun _ : Bytes => Bytes)).keys := by
      have hsome := AList.lookup_isSome.mpr h
      rw [namespacedAliases, AList.lookup_to_alist] at hsome
      exact dlookup_isSome.mp hsome
    obtain ⟨body, hbody⟩ := exists_of_mem_keys hkey
    obtain ⟨e, he, heq⟩ := mem_map.mp hbody
    cases heq
    exact ⟨e.1, mem_keys_of_mem he, rfl⟩
  · rintro ⟨n, hn, rfl⟩
    rw [← lookup_isSome, lookup_namespacedAliases, Option.isSome_map, lookup_isSome]
    exact hn


/-! ## Parsing -/

def rewriteView (localAliases : List Bytes) (ns : Bytes) (r : RuleView) : RuleView :=
  { r with checked := r.checked.map (rewriteLocalAliasRefs localAliases ns) }

def qualifyView (fragment : Bytes) (r : RuleView) : RuleView :=
  { r with id := r.id.map (qualifyId fragment) }

theorem views_rewriteRuleAliasRefs (localAliases : List Bytes) (ns : Bytes) :
    (rewriteRuleAliasRefs localAliases ns).Views (rewriteView localAliases ns) :=
  ⟨fun _ => rfl, fun _ => rfl, fun _ => rfl⟩

theorem views_qualifyRuleIds (fragment : Bytes) :
    (qualifyRuleIds fragment).Views (qualifyView fragment) :=
  ⟨fun _ => rfl, fun _ => rfl, fun _ => rfl⟩

/-- A fragment file and what was read. -/
structure Parsed (raw : RawFragmentConfig) (f : FragmentFile) : Prop where
  enabled : f.enabled = raw.enabled
  localAliases : ∀ name, name ∈ f.localAliases ↔ name ∈ raw.config.aliases
  isName : ∀ name ∈ raw.config.aliases, IsName aliasGrammar name
  aliases : f.config.aliases =
    namespacedAliases f.localAliases (aliasNamespace f.id) raw.config.aliases
  ids : ∀ s, ∀ r ∈ raw.config.rulesAt s, r.id.isSome
  rules : ∀ s, f.config.rulesAt s = (raw.config.rulesAt s).map fun r =>
    qualifyView f.id (rewriteView f.localAliases (aliasNamespace f.id) r)

/-- Without aliases nothing is rewritten. -/
theorem rewriteView_nil (ns : Bytes) : rewriteView [] ns = id := by
  have hrewrite : rewriteLocalAliasRefs [] ns = id := by
    funext input
    exact renameText_eq_self _ fun name _ => by simp [effectiveName]
  funext r
  rw [rewriteView, hrewrite, map_id]
  rfl

theorem namespaceAliases_eq_ok {cfg cfg' : Config} {path fragment : Bytes}
    {localAliases : List Bytes}
    (h : namespaceAliases cfg path fragment = .ok (cfg', localAliases)) :
    (∀ name, name ∈ localAliases ↔ name ∈ cfg.aliases) ∧
    (∀ name ∈ cfg.aliases, IsName aliasGrammar name) ∧
    cfg'.aliases = namespacedAliases localAliases (aliasNamespace fragment) cfg.aliases ∧
    ∀ s, cfg'.rulesAt s =
      (cfg.rulesAt s).map (rewriteView localAliases (aliasNamespace fragment)) := by
  unfold namespaceAliases at h
  split_ifs at h with hempty
  · obtain ⟨rfl, rfl⟩ := Prod.mk.inj (ok.inj h)
    have hnone : ∀ name, name ∉ cfg.aliases := by
      intro name hname
      rw [AList.mem_keys, List.isEmpty_iff.mp hempty] at hname
      cases hname
    have hentries : cfg.aliases.entries = [] := by
      simpa [AList.keys, List.keys] using hempty
    refine ⟨fun name => ⟨fun hname => (nomatch hname), fun hname => absurd hname (hnone name)⟩,
      fun name hname => absurd hname (hnone name), ?_, fun s => ?_⟩
    · refine ext ?_
      rw [namespacedAliases, hentries]
      rfl
    · rw [rewriteView_nil, map_id]
  · obtain ⟨⟨⟩, hchecks, h⟩ := bind_eq_ok.mp h
    obtain ⟨rfl, rfl⟩ := Prod.mk.inj (ok.inj h)
    have hmem : ∀ name, name ∈ sortedNames cfg.aliases.keys ↔ name ∈ cfg.aliases :=
      fun name => mem_sortedNames.trans AList.mem_keys.symm
    refine ⟨hmem, fun name hname => ?_, rfl, fun s => ?_⟩
    · have hcheck := forM_eq_ok.mp hchecks name ((hmem name).mpr hname)
      unfold validateAliasId at hcheck
      split_ifs at hcheck with hid
      exact isName_iff.mpr hid
    · exact RuleMap.rulesAt_apply (views_rewriteRuleAliasRefs _ _) _ s

theorem parseFragment_eq_ok {voc : Vocabulary} {path : Bytes} {raw : RawFragmentConfig}
    {f : FragmentFile} (h : parseFragment voc path raw = .ok f) : Parsed raw f := by
  obtain ⟨⟨⟩, -, h⟩ := bind_eq_ok.mp h
  obtain ⟨⟨⟩, -, h⟩ := bind_eq_ok.mp h
  obtain ⟨⟨cfg, localAliases⟩, hnames, h⟩ := bind_eq_ok.mp h
  obtain ⟨⟨⟩, -, h⟩ := bind_eq_ok.mp h
  obtain ⟨⟨⟩, -, h⟩ := bind_eq_ok.mp h
  obtain ⟨cfg', hids, h⟩ := bind_eq_ok.mp h
  obtain rfl := ok.inj h
  obtain ⟨hlocal, hname, haliases, hrules⟩ := namespaceAliases_eq_ok hnames
  obtain ⟨⟨⟩, hchecks, hids⟩ := bind_eq_ok.mp hids
  obtain rfl := ok.inj hids
  refine ⟨rfl, hlocal, hname, haliases, fun s r hr => ?_, fun s => ?_⟩
  · have hr' : rewriteView localAliases (aliasNamespace (trim raw.fragment)) r ∈ cfg.rulesAt s := by
      rw [hrules]
      exact mem_map_of_mem hr
    have hcheck := forM_eq_ok.mp (forM_eq_ok.mp hchecks s (mem_sections hr')) _ hr'
    cases hid : r.id with
    | none =>
      rw [rewriteView, hid] at hcheck
      cases hcheck
    | some id => rfl
  · refine (RuleMap.rulesAt_apply (views_qualifyRuleIds _) cfg s).trans ?_
    rw [hrules, map_map]
    rfl

/-! ## Rule keys -/

def ruleKey (s : Section) (id : Bytes) : Bytes := s.label ++ byteString "." ++ id

def Config.keys (cfg : Config) : List Bytes := cfg.ruleKeys.map (·.1)

theorem keys_eq (cfg : Config) :
    cfg.keys = cfg.sections.flatMap fun s => (ruleIds (cfg.rulesAt s)).map (ruleKey s) := by
  simp only [Config.keys, Config.ruleKeys, map_flatMap, ruleIds, map_filterMap]
  refine flatMap_congr fun s _ => filterMap_congr fun r _ => ?_
  cases r.id <;> rfl

theorem ruleKey_mem_keys {cfg : Config} {s : Section} {id : Bytes}
    (h : id ∈ ruleIds (cfg.rulesAt s)) : ruleKey s id ∈ cfg.keys := by
  obtain ⟨r, hr, -⟩ := mem_filterMap.mp h
  rw [keys_eq]
  exact mem_flatMap.mpr ⟨s, mem_sections hr, mem_map_of_mem h⟩

theorem nodup_ruleIds {cfg : Config} (h : cfg.keys.Nodup) (s : Section) :
    (ruleIds (cfg.rulesAt s)).Nodup := by
  by_cases hs : s ∈ cfg.sections
  · rw [keys_eq] at h
    exact Nodup.of_map _ ((nodup_flatMap.mp h).1 s hs)
  · have hnil : cfg.rulesAt s = [] :=
      eq_nil_iff_forall_not_mem.mpr fun r hr => hs (mem_sections hr)
    rw [hnil]
    exact nodup_nil

namespace RuleIndex

/-- Every key of a configuration has an origin. -/
def Covers (index : RuleIndex) (cfg : Config) : Prop := ∀ key ∈ cfg.keys, key ∈ index

theorem mem_foldl_orInsert {origin key : Bytes} :
    ∀ {keys : List (Bytes × List Bytes)} {index : RuleIndex},
      key ∈ index ∨ key ∈ keys.map (·.1) → key ∈ keys.foldl (orInsert origin) index
  | [], _, h => h.resolve_right fun hnil => nomatch hnil
  | k :: keys, index, h => by
    rw [map_cons, mem_cons, ← or_assoc] at h
    rw [foldl_cons]
    refine mem_foldl_orInsert (h.imp_left fun h => ?_)
    unfold orInsert
    split_ifs with hk
    · exact h.elim id fun heq => heq ▸ hk
    · exact (mem_insert _).mpr h.symm

theorem covers_fromConfig (cfg : Config) (origin : Bytes) : (fromConfig cfg origin).Covers cfg :=
  fun _ hkey => mem_foldl_orInsert (Or.inr hkey)

theorem foldlM_insertNew {origin : Bytes} {index' : RuleIndex} :
    ∀ {keys : List (Bytes × List Bytes)} {index : RuleIndex},
      keys.foldlM (insertNew origin) index = .ok index' →
        (keys.map (·.1)).Nodup ∧ (∀ key ∈ keys.map (·.1), key ∉ index) ∧
          ∀ key, key ∈ index' ↔ key ∈ index ∨ key ∈ keys.map (·.1)
  | [], index, h => by
    obtain rfl := ok.inj h
    simp
  | k :: keys, index, h => by
    rw [foldlM_cons] at h
    obtain ⟨one, hone, h⟩ := bind_eq_ok.mp h
    obtain ⟨hnodup, hnew, hmem⟩ := foldlM_insertNew h
    unfold insertNew at hone
    split at hone
    · cases hone
    · next hk =>
      obtain rfl := ok.inj hone
      have hk' : k.1 ∉ index := AList.lookup_eq_none.mp hk
      simp only [mem_insert, not_or] at hnew hmem
      refine ⟨nodup_cons.mpr ⟨fun hin => (hnew _ hin).1 rfl, hnodup⟩, ?_, fun key => ?_⟩
      · rintro key hkey
        rcases mem_cons.mp hkey with rfl | hkey
        · exact hk'
        · exact (hnew key hkey).2
      · rw [hmem, map_cons, mem_cons]
        tauto

/-- An accepted configuration has new keys, each once. -/
theorem insertConfig_eq_ok {index index' : RuleIndex} {cfg : Config} {origin : Bytes}
    (h : index.insertConfig cfg origin = .ok index') :
    cfg.keys.Nodup ∧ (∀ key ∈ cfg.keys, key ∉ index) ∧
      ∀ key, key ∈ index' ↔ key ∈ index ∨ key ∈ cfg.keys := foldlM_insertNew h

end RuleIndex

/-- New keys make new ids in every section. -/
theorem fresh_of_keys {index : RuleIndex} {base cfg : Config} (hcovers : index.Covers base)
    (hnodup : cfg.keys.Nodup) (hnew : ∀ key ∈ cfg.keys, key ∉ index) (s : Section) :
    Fresh (base.rulesAt s) (cfg.rulesAt s) where
  nodup := nodup_ruleIds hnodup s
  new _ hid hbase := hnew _ (ruleKey_mem_keys hid) (hcovers _ (ruleKey_mem_keys hbase))

/-! ## One fragment -/

/-- What an enabled fragment has passed, and what it changes. -/
structure Entered (globalAliases : Aliases) (st : MergeState) (f : FragmentFile)
    (st' : MergeState) : Prop where
  noShadow : ∀ name ∈ f.localAliases, name ∉ st.aliasOrigins
  noCollision : ∀ name ∈ f.config.aliases, name ∉ st.aliasOrigins
  resolves : ∀ name ∈ mergeAliases globalAliases f.config.aliases,
    (aliasExpansion (mergeAliases globalAliases f.config.aliases) name).isSome
  references : ∀ s, ∀ r ∈ f.config.rulesAt s, r.id.isSome → ∀ text ∈ r.checked,
    (aliasText (mergeAliases globalAliases f.config.aliases) text).isSome
  nodup : f.config.keys.Nodup
  newKeys : ∀ key ∈ f.config.keys, key ∉ st.index
  config : st'.config =
    mergeConfig { st.config with fragments := st.config.fragments ++ [f.info] } f.seeded
  index : ∀ key, key ∈ st'.index ↔ key ∈ st.index ∨ key ∈ f.config.keys
  origins : ∀ name, name ∈ st'.aliasOrigins ↔ name ∈ st.aliasOrigins ∨ name ∈ f.config.aliases

theorem mem_foldl_insert {origin name : Bytes} :
    ∀ {names : List Bytes} {origins : AList fun _ : Bytes => Bytes},
      name ∈ names.foldl (fun origins n => origins.insert n origin) origins ↔
        name ∈ origins ∨ name ∈ names
  | [], _ => by simp
  | n :: names, origins => by
    rw [foldl_cons, mem_foldl_insert, mem_insert, mem_cons]
    tauto

variable {f : FragmentFile}

theorem mem_aliasKeys {name : Bytes} :
    name ∈ f.aliasKeys ↔ name ∈ f.config.aliases := mem_sortedNames.trans AList.mem_keys.symm

theorem validateAliasBoundaries_eq_ok
    {origins : AList fun _ : Bytes => Bytes} (h : validateAliasBoundaries f origins = .ok ()) :
    (∀ name ∈ f.localAliases, name ∉ origins) ∧ ∀ name ∈ f.config.aliases, name ∉ origins := by
  obtain ⟨⟨⟩, hlocal, hkeys⟩ := bind_eq_ok.mp h
  constructor
  · intro name hname
    have hcheck := forM_eq_ok.mp hlocal name hname
    split_ifs at hcheck with hin
    exact hin
  · intro name hname
    have hcheck := forM_eq_ok.mp hkeys name (mem_aliasKeys.mpr hname)
    split at hcheck
    · cases hcheck
    · next hnone => exact AList.lookup_eq_none.mp hnone

theorem validateAliasReferences_eq_ok {scope aliases : Aliases}
    (hresolve : resolveAliases scope = .ok aliases)
    (h : validateAliasReferences f aliases = .ok ()) {s : Section} {r : RuleView}
    (hr : r ∈ f.config.rulesAt s) (hid : r.id.isSome) {text : Bytes} (htext : text ∈ r.checked) :
    (aliasText scope text).isSome := by
  obtain ⟨id, hid⟩ := isSome_iff_exists.mp hid
  have hkey : (ruleKey s id, r.checked) ∈ f.config.ruleKeys :=
    mem_flatMap.mpr ⟨s, mem_sections hr, mem_filterMap.mpr ⟨r, hr, by rw [hid]; rfl⟩⟩
  have hcheck := forM_eq_ok.mp (forM_eq_ok.mp h _ hkey) text htext
  obtain ⟨out, hout, -⟩ := bind_eq_ok.mp hcheck
  exact isSome_of_mem ((substituteAliases_eq_ok_iff hresolve).mp hout)

variable {globalAliases : Aliases}

/-- A fragment enters the configuration, or is disabled and only listed. -/
theorem mergeFragment_eq_ok {st st' : MergeState} {f : FragmentFile}
    (h : mergeFragment globalAliases st f = .ok st') :
    (f.enabled = true ∧ Entered globalAliases st f st') ∨
      (f.enabled = false ∧ st' = { st with config :=
          { st.config with fragments := st.config.fragments ++ [f.info] } }) := by
  unfold mergeFragment at h
  obtain ⟨⟨⟩, hboundaries, h⟩ := bind_eq_ok.mp h
  split_ifs at h with henabled
  · left
    obtain ⟨aliases, hresolve, h⟩ := bind_eq_ok.mp h
    obtain ⟨⟨⟩, hreferences, h⟩ := bind_eq_ok.mp h
    obtain ⟨index, hindex, h⟩ := bind_eq_ok.mp h
    obtain rfl := ok.inj h
    obtain ⟨hshadow, hcollision⟩ := validateAliasBoundaries_eq_ok hboundaries
    obtain ⟨hnodup, hnew, hkeys⟩ := RuleIndex.insertConfig_eq_ok hindex
    exact ⟨henabled, {
        noShadow := hshadow
        noCollision := hcollision
        resolves := resolveAliases_ok_iff.mp ⟨aliases, hresolve⟩
        references := fun s r hr hid text htext =>
          validateAliasReferences_eq_ok hresolve hreferences hr hid htext
        nodup := hnodup
        newKeys := hnew
        config := rfl
        index := hkeys
        origins := fun name => by rw [mem_foldl_insert, mem_aliasKeys] }⟩
  · right
    exact ⟨Bool.eq_false_iff.mpr henabled, (ok.inj h).symm⟩

/-- An enabled fragment with new names, whose references are aliases of a resolvable scope, is
accepted. -/
theorem mergeFragment_accepts {st : MergeState} {f : FragmentFile}
    (henabled : f.enabled = true) (hboundaries : validateAliasBoundaries f st.aliasOrigins = .ok ())
    (hscope : ∀ name ∈ mergeAliases globalAliases f.config.aliases,
      (aliasExpansion (mergeAliases globalAliases f.config.aliases) name).isSome)
    (hreferences : ∀ key ∈ f.config.ruleKeys, ∀ text ∈ key.2, ∀ name ∈ names aliasGrammar text,
      name ∈ mergeAliases globalAliases f.config.aliases)
    (hindex : ∃ index, st.index.insertConfig f.config f.path = .ok index) :
    ∃ st', mergeFragment globalAliases st f = .ok st' := by
  obtain ⟨aliases, haliases⟩ := resolveAliases_ok_iff.mpr hscope
  obtain ⟨index, hindex⟩ := hindex
  have hchecks : validateAliasReferences f aliases = .ok () := by
    refine forM_eq_ok.mpr fun key hkey => forM_eq_ok.mpr fun text htext => ?_
    have htextSome : (aliasText (mergeAliases globalAliases f.config.aliases) text).isSome :=
      (isSome_expandText aliasGrammar aliasOutput).mpr fun name hname =>
        hscope name (hreferences key hkey text htext name hname)
    obtain ⟨out, hout⟩ := isSome_iff_exists.mp htextSome
    rw [(substituteAliases_eq_ok_iff haliases).mpr hout]
    rfl
  unfold mergeFragment
  simp only [hboundaries, henabled, if_true, haliases, hchecks, hindex, bind, Except.bind]
  exact ⟨_, rfl⟩

/-! ## Runs -/

/-- A configuration that keeps the aliases and the rules of another one. The rules it adds
have ids of their own. -/
structure Extends (c c' : Config) : Prop where
  aliases : ∀ name body, c.aliases.lookup name = some body → c'.aliases.lookup name = some body
  rules : ∀ s, ∃ added, c'.rulesAt s = c.rulesAt s ++ added ∧
    ∀ id ∈ ruleIds added, id ∉ ruleIds (c.rulesAt s)

namespace Extends

variable {c c' c'' : Config}

theorem refl (c : Config) : Extends c c where
  aliases _ _ h := h
  rules _ := ⟨[], (append_nil _).symm, fun _ h => nomatch h⟩

theorem trans (h : Extends c c') (h' : Extends c' c'') : Extends c c'' where
  aliases name body hbody := h'.aliases name body (h.aliases name body hbody)
  rules s := by
    obtain ⟨added, hadded, hnew⟩ := h.rules s
    obtain ⟨added', hadded', hnew'⟩ := h'.rules s
    refine ⟨added ++ added', by rw [hadded', hadded, append_assoc], fun id hid => ?_⟩
    rw [ruleIds, filterMap_append, mem_append] at hid
    refine hid.elim (hnew id) fun hid hmem => hnew' id hid ?_
    rw [hadded, ruleIds, filterMap_append]
    exact mem_append_left _ hmem

theorem mem_aliases (h : Extends c c') {name : Bytes} (hname : name ∈ c.aliases) :
    name ∈ c'.aliases := by
  obtain ⟨body, hbody⟩ := isSome_iff_exists.mp (AList.lookup_isSome.mpr hname)
  exact AList.lookup_isSome.mp (isSome_of_mem (h.aliases name body hbody))

/-- The rules with an id that is there stay the same. -/
theorem filter_rulesAt (h : Extends c c') {s : Section} {id : Bytes}
    (hid : id ∈ ruleIds (c.rulesAt s)) :
    (c'.rulesAt s).filter (·.id = some id) = (c.rulesAt s).filter (·.id = some id) := by
  obtain ⟨added, hadded, hnew⟩ := h.rules s
  have hnone : added.filter (·.id = some id) = [] := by
    refine filter_eq_nil_iff.mpr fun r hr heq => ?_
    exact hnew id (mem_filterMap.mpr ⟨r, hr, by simpa using heq⟩) hid
  rw [hadded, filter_append, hnone, append_nil]

end Extends

/-- The state after fragments were merged into a configuration. -/
structure Sound (base : Config) (st : MergeState) : Prop where
  index : st.index.Covers st.config
  origins : ∀ name, name ∈ st.aliasOrigins ↔ name ∈ st.config.aliases
  keeps : Extends base st.config
  resolves : ∀ name ∈ st.config.aliases, (aliasExpansion st.config.aliases name).isSome

theorem sound_start {base : Config}
    (h : ∀ name ∈ base.aliases, (aliasExpansion base.aliases name).isSome) :
    Sound base (MergeState.start base) where
  index := RuleIndex.covers_fromConfig base effectiveConfig
  origins name := by
    simp only [MergeState.start]
    rw [mem_foldl_insert, AList.mem_keys]
    exact or_iff_right (AList.notMem_empty _)
  keeps := Extends.refl base
  resolves := h

theorem mem_mergeAliases {base ov : Aliases} {name : Bytes} :
    name ∈ mergeAliases base ov ↔ name ∈ ov ∨ name ∈ base := by
  rw [← lookup_isSome, lookup_mergeAliases, isSome_or, Bool.or_eq_true,
    lookup_isSome, lookup_isSome]

variable {base : Config} {st st' : MergeState} {f : FragmentFile}

namespace Entered

/-- An enabled fragment adds its aliases. -/
theorem lookup_aliases (h : Entered base.aliases st f st') (name : Bytes) :
    st'.config.aliases.lookup name =
      (f.config.aliases.lookup name).or (st.config.aliases.lookup name) := by
  rw [h.config]
  exact lookup_mergeAliases

variable (hst : Sound base st) (h : Entered base.aliases st f st')

include hst h

/-- An enabled fragment adds its rules. -/
theorem rulesAt (s : Section) :
    st'.config.rulesAt s = st.config.rulesAt s ++ f.config.rulesAt s := by
  have hseeded : f.seeded.rulesAt s = f.config.rulesAt s := RuleMap.rulesAt_markSources _ _ s
  have hfresh := fresh_of_keys hst.index h.nodup h.newKeys s
  rw [← hseeded] at hfresh ⊢
  rw [h.config]
  exact rulesAt_mergeConfig hfresh

theorem keeps : Extends st.config st'.config where
  aliases name body hbody := by
    have hname : name ∉ f.config.aliases := fun hname => by
      refine h.noCollision name hname ((hst.origins name).mpr ?_)
      exact AList.lookup_isSome.mp (isSome_of_mem hbody)
    rw [h.lookup_aliases, AList.lookup_eq_none.mpr hname, Option.none_or, hbody]
  rules s :=
    ⟨f.config.rulesAt s, h.rulesAt hst s, (fresh_of_keys hst.index h.nodup h.newKeys s).new⟩

/-- The aliases of the base and of the fragment are read in the state as in their own scope. -/
theorem lookup_scope (name body : Bytes)
    (hbody : (mergeAliases base.aliases f.config.aliases).lookup name = some body) :
    st'.config.aliases.lookup name = some body := by
  rw [lookup_mergeAliases, Option.or_eq_some_iff] at hbody
  rw [h.lookup_aliases, Option.or_eq_some_iff]
  exact hbody.imp_right fun ⟨hnone, hbase⟩ => ⟨hnone, hst.keeps.aliases name body hbase⟩

theorem sound : Sound base st' where
  index key hkey := by
    rw [h.index]
    rw [keys_eq] at hkey
    obtain ⟨s, -, hkey⟩ := mem_flatMap.mp hkey
    obtain ⟨id, hid, rfl⟩ := mem_map.mp hkey
    rw [h.rulesAt hst, ruleIds, filterMap_append, mem_append] at hid
    exact hid.imp (fun hid => hst.index _ (ruleKey_mem_keys hid)) ruleKey_mem_keys
  origins name := by
    rw [h.origins, hst.origins, ← lookup_isSome, ← lookup_isSome (s := st'.config.aliases),
      ← lookup_isSome, h.lookup_aliases, isSome_or, Bool.or_eq_true, or_comm]
  keeps := hst.keeps.trans (h.keeps hst)
  resolves name hname := by
    rw [← lookup_isSome, h.lookup_aliases, isSome_or, Bool.or_eq_true] at hname
    rcases hname with hname | hname
    · have hscope := h.resolves name (mem_mergeAliases.mpr (Or.inl (AList.lookup_isSome.mp hname)))
      obtain ⟨v, hv⟩ := isSome_iff_exists.mp hscope
      exact isSome_of_mem (expansion_mono _ _ (h.lookup_scope hst) hv)
    · obtain ⟨v, hv⟩ := isSome_iff_exists.mp (hst.resolves name (AList.lookup_isSome.mp hname))
      exact isSome_of_mem (expansion_mono _ _ (h.keeps hst).aliases hv)

end Entered

/-- One step keeps the state sound and what it holds. -/
theorem mergeFragment_sound (hst : Sound base st) (h : mergeFragment base.aliases st f = .ok st') :
    Sound base st' ∧ Extends st.config st'.config := by
  rcases mergeFragment_eq_ok h with ⟨-, hentered⟩ | ⟨-, rfl⟩
  · exact ⟨hentered.sound hst, hentered.keeps hst⟩
  · exact ⟨⟨hst.index, hst.origins, ⟨hst.keeps.aliases, hst.keeps.rules⟩, hst.resolves⟩,
      ⟨fun _ _ h => h, fun _ => ⟨[], (append_nil _).symm, fun _ h => nomatch h⟩⟩⟩

theorem mergeRun_sound : ∀ {files : List FragmentFile} {st st' : MergeState}, Sound base st →
    files.foldlM (mergeFragment base.aliases) st = .ok st' →
      Sound base st' ∧ Extends st.config st'.config
  | [], st, st', hst, h => by
    obtain rfl := ok.inj h
    exact ⟨hst, Extends.refl st.config⟩
  | f :: files, st, st', hst, h => by
    rw [foldlM_cons] at h
    obtain ⟨one, hone, h⟩ := bind_eq_ok.mp h
    obtain ⟨hsound, hkeeps⟩ := mergeFragment_sound hst hone
    obtain ⟨hsound', hkeeps'⟩ := mergeRun_sound hsound h
    exact ⟨hsound', hkeeps.trans hkeeps'⟩

/-- Each enabled fragment enters a sound state, and what it adds stays. -/
theorem mergeRun_entered : ∀ {files : List FragmentFile} {st st' : MergeState}, Sound base st →
    files.foldlM (mergeFragment base.aliases) st = .ok st' → f ∈ files → f.enabled = true →
      ∃ before after, Sound base before ∧ Entered base.aliases before f after ∧
        Extends after.config st'.config
  | g :: files, st, st', hst, h, hf, henabled => by
    rw [foldlM_cons] at h
    obtain ⟨one, hone, hrest⟩ := bind_eq_ok.mp h
    have hsound := (mergeFragment_sound hst hone).1
    rcases mem_cons.mp hf with rfl | hf
    · rcases mergeFragment_eq_ok hone with ⟨-, hentered⟩ | ⟨hdisabled, -⟩
      · exact ⟨st, one, hst, hentered, (mergeRun_sound hsound hrest).2⟩
      · rw [henabled] at hdisabled
        cases hdisabled
    · exact mergeRun_entered hsound hrest hf henabled

/-! ## Disabled fragments -/

def Config.withFragments (cfg : Config) (fragments : List FragmentInfo) : Config :=
  { cfg with fragments }

def MergeState.withFragments (st : MergeState) (fragments : List FragmentInfo) : MergeState :=
  { st with config := st.config.withFragments fragments }

/-- An enabled fragment does not read the list of fragments. -/
theorem mergeFragment_withFragments (st : MergeState)
    (fragments : List FragmentInfo) (henabled : f.enabled = true) :
    mergeFragment globalAliases (st.withFragments fragments) f =
      (mergeFragment globalAliases st f).map (·.withFragments (fragments ++ [f.info])) := by
  unfold mergeFragment
  simp only [MergeState.withFragments, Config.withFragments, henabled, if_true]
  cases validateAliasBoundaries f st.aliasOrigins with
  | error e => rfl
  | ok _ =>
    cases resolveAliases (mergeAliases globalAliases f.config.aliases) with
    | error e => rfl
    | ok aliases =>
      simp only [bind, Except.bind]
      cases validateAliasReferences f aliases with
      | error e => rfl
      | ok _ =>
        cases st.index.insertConfig f.config f.path with
        | error e => rfl
        | ok index => rfl

theorem mergeRun_enabled :
    ∀ {files : List FragmentFile} {st st' : MergeState} {fragments : List FragmentInfo},
      files.foldlM (mergeFragment globalAliases) (st.withFragments fragments) = .ok st' →
        ∃ st'', (files.filter (·.enabled)).foldlM (mergeFragment globalAliases) st = .ok st'' ∧
          st' = st''.withFragments st'.config.fragments
  | [], st, st', fragments, h => by
    obtain rfl := ok.inj h
    exact ⟨st, rfl, rfl⟩
  | f :: files, st, st', fragments, h => by
    rw [foldlM_cons] at h
    obtain ⟨one, hone, h⟩ := bind_eq_ok.mp h
    cases henabled : f.enabled with
    | true =>
      rw [mergeFragment_withFragments st fragments henabled] at hone
      rw [filter_cons_of_pos henabled, foldlM_cons]
      cases hstep : mergeFragment globalAliases st f with
      | error e =>
        rw [hstep] at hone
        cases hone
      | ok next =>
        rw [hstep] at hone
        obtain rfl := ok.inj hone
        exact mergeRun_enabled h
    | false =>
      rcases mergeFragment_eq_ok hone with ⟨htrue, -⟩ | ⟨-, rfl⟩
      · rw [henabled] at htrue
        cases htrue
      · rw [filter_cons_of_neg (by simp [henabled])]
        exact mergeRun_enabled h

/-- Without the disabled fragments, the configuration is the same but for the list of them. -/
theorem mergeInto_enabled {files : List FragmentFile} {merged : Config}
    (h : mergeInto base files = .ok merged) :
    ∃ merged', mergeInto base (files.filter (·.enabled)) = .ok merged' ∧
      merged = merged'.withFragments merged.fragments := by
  obtain ⟨st, hrun, h⟩ := bind_eq_ok.mp h
  obtain rfl := ok.inj h
  have hstart : MergeState.start base = (MergeState.start base).withFragments base.fragments := rfl
  rw [hstart] at hrun
  obtain ⟨st', hrun', heq⟩ := mergeRun_enabled hrun
  refine ⟨st'.config, ?_, congrArg MergeState.config heq⟩
  rw [mergeInto, hrun']
  rfl

end CodeMoniker.Fragments
