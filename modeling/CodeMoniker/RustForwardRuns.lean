import CodeMoniker.RustForwards

/-!
# Following Rust re-exports to an end

`followAliases` ends on every target exactly when `rewriteExternalMember` alone leads from each
target to finitely many (`followAliases_ends_iff`). Crate roots, macro scopes and local forwards
never keep it running : a local forward lowers the number of keys that are left, and a forward of a
moniker jumps to one of the recorded targets.

The other way round, local forwards are recorded under the definitions of the workspace, which no
external path is below. So nothing but public paths rewrites an external target, and a loop that
ends has seen everything that they lead to.
-/

namespace CodeMoniker

open List Option ByteCodec FuelLoops RustForwards
open ForwardTables (bareExternalRoot recordBarrel recordForward wildcardBarrel)

/-! ## What is recorded -/

/-- The moniker is in no external package. -/
def InWorkspace (m : Moniker) : Prop := ∀ s ∈ m.segments, s.kind ≠ byteString "external_pkg"

/-- What extraction makes of a Rust file : its definitions are in the workspace. -/
def RustDefinitionsLocal (m : CodeIndexMaterial) : Prop :=
  ∀ file ∈ m.files, file.lang = .rs → ∀ d ∈ file.graph.defs, InWorkspace d.moniker

/-- The target starts with an external package. -/
def IsExternal (target : Moniker) : Prop :=
  ∃ head segments, target.segments = head :: segments ∧ head.kind = byteString "external_pkg"

theorem mem_insertRustForward {κ : Type} [DecidableEq κ] {forwards : Forwards κ} {key k : κ}
    {target : Moniker} : k ∈ insertRustForward forwards key target ↔ k = key ∨ k ∈ forwards :=
  AList.mem_insert _

theorem segments_of_extendMoniker {m m' : Moniker} {segments : List Segment}
    (h : extendMoniker m segments = some m') : m'.segments = m.segments ++ segments := by
  obtain ⟨project, segs, hp, hs, rfl⟩ := Moniker.exists_parts m
  rw [extendMoniker, Moniker.project_ofParts, Moniker.segments_ofParts] at h
  obtain ⟨e, he⟩ : ∃ e, (MonikerBuilder.mk project (segs ++ segments)).tryMoniker = .ok e := by
    cases he : (MonikerBuilder.mk project (segs ++ segments)).tryMoniker with
    | ok e => exact ⟨e, rfl⟩
    | error e => rw [he] at h; cases h
  have hbuild := tryBuild_eq_ok_iff.mp (tryBuild_of_tryMoniker he)
  obtain ⟨-, hall, hbytes⟩ := hbuild
  rw [tryMoniker_ofParts hp hall] at h
  obtain rfl := some.inj h
  rw [Moniker.segments_ofParts, Moniker.segments_ofParts]

namespace RustForwards

/-- The kinds in a key. -/
def OutsideExternal (key : RustLocalAliasKey) : Prop :=
  ∀ part ∈ key.2, part.1 ≠ byteString "external_pkg"

/-- No external path has a key in the tables of the workspace. -/
structure Keyed (f : RustForwards) : Prop where
  aliases : ∀ m ∈ f.byRustAlias, ¬IsExternal m
  localAlias : ∀ key ∈ f.byRustLocalAlias, OutsideExternal key
  localWildcard : ∀ key ∈ f.byRustLocalWildcard, OutsideExternal key

theorem keyed_empty : empty.Keyed := by
  constructor <;> intro _ h <;> cases h

variable {f f' : RustForwards}

theorem keyed_insertAlias (h : f.Keyed) {aliasMoniker : Moniker}
    (haliases : ¬IsExternal aliasMoniker)
    (target : Moniker) : (f.insertAlias aliasMoniker target).Keyed := by
  refine ⟨fun key hkey => ?_, h.localAlias, h.localWildcard⟩
  rcases mem_insertRustForward.mp hkey with rfl | hkey
  · exact haliases
  · exact h.aliases key hkey

theorem keyed_insertLocalAlias (h : f.Keyed) {key : RustLocalAliasKey} (hkey : OutsideExternal key)
    (target : Moniker) : (f.insertLocalAlias key target).Keyed := by
  refine ⟨h.aliases, fun key' hkey' => ?_, h.localWildcard⟩
  rcases mem_insertRustForward.mp hkey' with rfl | hkey'
  · exact hkey
  · exact h.localAlias key' hkey'

theorem keyed_insertLocalWildcard (h : f.Keyed) {key : RustLocalAliasKey}
    (hkey : OutsideExternal key) (target : Moniker) : (f.insertLocalWildcard key target).Keyed := by
  refine ⟨h.aliases, h.localAlias, fun key' hkey' => ?_⟩
  rcases mem_insertRustForward.mp hkey' with rfl | hkey'
  · exact hkey
  · exact h.localWildcard key' hkey'

/-- Public paths are tables of their own. -/
theorem keyed_foldl_insertPrefix (path : List Bytes) (target : Moniker) : ∀ (roots : List Bytes)
    {f : RustForwards}, f.Keyed → (roots.foldl (insertPrefix path target) f).Keyed
  | [], _, h => h
  | root :: roots, f, h => keyed_foldl_insertPrefix path target roots
    (f := f.insertPrefix path target root) ⟨h.aliases, h.localAlias, h.localWildcard⟩

theorem keyed_foldl_insertMember (path : List Bytes) (target : Moniker) : ∀ (roots : List Bytes)
    {f : RustForwards}, f.Keyed → (roots.foldl (insertMember path target) f).Keyed
  | [], _, h => h
  | root :: roots, f, h => keyed_foldl_insertMember path target roots
    (f := f.insertMember path target root) ⟨h.aliases, h.localAlias, h.localWildcard⟩

theorem not_isExternal {m : Moniker} (h : InWorkspace m) : ¬IsExternal m := by
  rintro ⟨head, segments, hm, hkind⟩
  exact h head (hm ▸ mem_cons_self) hkind

theorem path_ne_externalPkg : byteString "path" ≠ byteString "external_pkg" := by decide

theorem outsideExternal_rustLocalAliasKey {m : Moniker} (h : InWorkspace m) :
    OutsideExternal (rustLocalAliasKey m) := by
  intro part hpart
  obtain ⟨s, hs, rfl⟩ := List.mem_map.mp hpart
  have hmem : s.1 ∈ m.segments := mem_of_mem_filter (fst_mem_of_mem_zipIdx hs)
  rw [rustLocalAliasSegmentKey]
  split_ifs
  · exact path_ne_externalPkg
  · exact h s.1 hmem

/-- A reference binds a name below its source. -/
theorem inWorkspace_of_rustReexportAliasMoniker {source : DefRecord}
    (hsource : InWorkspace source.moniker) {r : RefRecord} {aliasMoniker : Moniker}
    (h : rustReexportAliasMoniker source r = some (some aliasMoniker)) :
    InWorkspace aliasMoniker := by
  unfold rustReexportAliasMoniker at h
  split at h
  · cases h
  · obtain ⟨m, hm, hsome⟩ := map_eq_some_iff.mp h
    obtain rfl := some.inj hsome
    intro s hs
    rw [segments_of_extendMoniker hm] at hs
    rcases mem_append.mp hs with hs | hs
    · exact hsource s hs
    · rw [mem_singleton.mp hs]
      exact path_ne_externalPkg

theorem keyed_recordMacroUse (h : f.Keyed) (site : ForwardSite) :
    (f.recordMacroUse site).Keyed := by
  rw [recordMacroUse]
  split_ifs
  · exact ⟨h.aliases, h.localAlias, h.localWildcard⟩
  · exact h

theorem keyed_recordLocalBinding (h : f.Keyed) {site : ForwardSite}
    (hsource : InWorkspace site.source.moniker) (hf : f.recordLocalBinding site = some f') :
    f'.Keyed := by
  have hmacro := keyed_recordMacroUse h site
  unfold recordLocalBinding at hf
  dsimp only at hf
  split_ifs at hf
  · obtain rfl := some.inj hf
    exact keyed_insertLocalWildcard hmacro (outsideExternal_rustLocalAliasKey hsource) _
  · obtain ⟨found, hfound, rfl⟩ := map_eq_some_iff.mp hf
    cases found with
    | none => exact hmacro
    | some aliasMoniker =>
      exact keyed_insertLocalAlias hmacro (outsideExternal_rustLocalAliasKey
        (inWorkspace_of_rustReexportAliasMoniker hsource hfound)) _
  · obtain rfl := some.inj hf
    exact hmacro

theorem keyed_recordMember {p : PackagePolicy} (h : f.Keyed) {site : ForwardSite}
    (hsource : InWorkspace site.source.moniker) (hf : f.recordMember p site = some f') :
    f'.Keyed := by
  unfold recordMember at hf
  dsimp only at hf
  split at hf
  · obtain rfl := some.inj hf
    exact h
  · split at hf
    · obtain rfl := some.inj hf
      exact h
    · split at hf
      · obtain rfl := some.inj hf
        exact keyed_foldl_insertPrefix _ _ _ h
      · obtain ⟨found, hfound, rfl⟩ := map_eq_some_iff.mp hf
        refine keyed_foldl_insertMember _ _ _ ?_
        cases found with
        | none => exact h
        | some aliasMoniker =>
          exact keyed_insertAlias h
            (not_isExternal (inWorkspace_of_rustReexportAliasMoniker hsource hfound)) _

theorem keyed_recordPrefix (p : PackagePolicy) (h : f.Keyed) (site : ForwardSite) :
    (f.recordPrefix p site).Keyed := by
  unfold recordPrefix
  split
  · exact h
  · exact keyed_foldl_insertPrefix _ _ _ h

end RustForwards

/-- What one reference records. Other languages leave the tables of Rust as they are. -/
theorem ForwardTables.keyed_recordForward {p : PackagePolicy} {lang : Lang} {site : ForwardSite}
    {t t' : ForwardTables} (h : t.rust.Keyed)
    (hsource : lang = .rs → InWorkspace site.source.moniker)
    (ht : recordForward p lang site t = some t') : t'.rust.Keyed := by
  unfold recordForward at ht
  obtain ⟨rust, hrust, ht⟩ := bind_eq_some_iff.mp ht
  have hrust' : rust.Keyed := by
    split_ifs at hrust with hlang
    · exact keyed_recordLocalBinding h (hsource hlang) hrust
    · exact some.inj hrust ▸ h
  unfold recordReexport at ht
  split at ht
  · exact some.inj ht ▸ hrust'
  · split at ht
    · split at ht
      · exact some.inj ht ▸ keyed_recordPrefix p hrust' site
      · exact some.inj ht ▸ hrust'
    · obtain ⟨member, hmember, rfl⟩ := map_eq_some_iff.mp ht
      have hmember' : member.Keyed := by
        split_ifs at hmember with hlang
        · exact keyed_recordMember hrust' (hsource hlang) hmember
        · exact some.inj hmember ▸ hrust'
      unfold recordBarrel
      split <;> exact hmember'

theorem foldlM_preserves {α β : Type} {step : β → α → Option β} {P : β → Prop} : ∀ {l : List α}
    {b b' : β}, l.foldlM step b = some b' → (∀ a ∈ l, ∀ b b', P b → step b a = some b' → P b') →
    P b → P b'
  | [], b, b', h, _, hb => by
    obtain rfl := some.inj h
    exact hb
  | a :: l, b, b', h, hstep, hb => by
    rw [foldlM_cons] at h
    obtain ⟨next, hnext, h⟩ := bind_eq_some_iff.mp h
    exact foldlM_preserves h (fun a' ha' => hstep a' (mem_cons_of_mem a ha'))
      (hstep a mem_cons_self b next hb hnext)

namespace BindingForwards

/-- What every reference keeps of the tables holds of those that are built. -/
theorem recorded_of_build {φ : Type} {record : Lang → ForwardSite → φ → φ}
    {manifests : ManifestPolicy} {m : CodeIndexMaterial} {start : φ} {f : BindingForwards φ}
    {P : φ → Prop} (h : build record manifests m start = some f) (hstart : P start)
    (hrecord : ∀ file ∈ m.files, ∀ fileIdx, ∀ source ∈ file.graph.defs, ∀ r t, P t →
      P (record file.lang ⟨fileIdx, source, r⟩ t)) : P f.recorded := by
  refine foldlM_preserves (P := fun f : BindingForwards φ => P f.recorded) h
    (fun file hfile f f' hf hstep => ?_) hstart
  have hmem : file.1 ∈ m.files := fst_mem_of_mem_zipIdx hfile
  obtain ⟨f₁, hf₁, hrefs⟩ := bind_eq_some_iff.mp hstep
  have hroot : P f₁.recorded := by
    unfold insertCrateRoot at hf₁
    split at hf₁
    · exact some.inj hf₁ ▸ hf
    · split_ifs at hf₁
      · obtain ⟨found, -, rfl⟩ := map_eq_some_iff.mp hf₁
        cases found <;> exact hf
      · exact some.inj hf₁ ▸ hf
  refine foldlM_preserves (P := fun f : BindingForwards φ => P f.recorded) hrefs
    (fun r _ f f' hf hstep => ?_) hroot
  obtain ⟨source, hsource, rfl⟩ := map_eq_some_iff.mp hstep
  exact hrecord file.1 hmem file.2 source (mem_of_getElem? hsource) r _ hf

theorem keyed_of_ofMaterial {p : PackagePolicy} {manifests : ManifestPolicy} {m : CodeIndexMaterial}
    (hm : RustDefinitionsLocal m) {f : BindingForwards ForwardTables}
    (h : ofMaterial p manifests m = some f) : f.recorded.rust.Keyed := by
  obtain ⟨built, hbuilt, h⟩ := bind_eq_some_iff.mp h
  obtain ⟨t, ht, h⟩ := bind_eq_some_iff.mp h
  obtain rfl := some.inj h
  have hkeyed : ∀ t ∈ built.recorded, t.rust.Keyed := by
    refine recorded_of_build (P := fun found => ∀ t ∈ found, t.rust.Keyed) hbuilt ?_ ?_
    · intro t ht
      obtain rfl := some.inj ht
      exact keyed_empty
    · intro file hfile fileIdx source hsource r found hfound t ht
      obtain ⟨before, hbefore, ht⟩ := bind_eq_some_iff.mp ht
      exact ForwardTables.keyed_recordForward (hfound before hbefore)
        (fun hlang => hm file hfile hlang source hsource) ht
  exact hkeyed t ht

/-! ## Loops that end -/

section Ends

variable {f : BindingForwards ForwardTables}

/-- A public forward leads from one target to another. -/
def PublicStep (f : BindingForwards ForwardTables) (t t' : Moniker) : Prop :=
  t' ∈ f.rewriteExternalMember t

def localKeys (f : BindingForwards ForwardTables) : Finset RustLocalAliasKey :=
  (f.recorded.rust.byRustLocalAlias.keys ++ f.recorded.rust.byRustLocalWildcard.keys).toFinset

def aliasTargets (f : BindingForwards ForwardTables) : Finset Moniker :=
  (f.recorded.rust.byRustAlias.keys.flatMap fun m =>
    (f.recorded.rust.byRustAlias.lookup m).getD []).toFinset

/-- A turn that uses no local forward. -/
def StayStep (f : BindingForwards ForwardTables) (a b : PendingTarget) : Prop :=
  (f.PublicStep a.1 b.1 ∨ b.1 ∈ f.aliasTargets) ∧ b.2 = a.2

/-- A turn that uses up the key of a local forward. -/
def LocalStep (f : BindingForwards ForwardTables) (a b : PendingTarget) : Prop :=
  b ∈ f.forwardedTargets a ∧ ∃ key ∈ f.localKeys, key ∉ a.2 ∧ b.2 = key :: a.2

variable {target : Moniker}

theorem key_of_rewriteLocalForwardFrom {used : List RustLocalAliasKey}
    {forwards : Forwards RustLocalAliasKey} {requireSuffix : Bool} {segments : List Segment}
    {key : RustLocalAliasKey} {targets : List Moniker} : ∀ {prefixLen : ℕ},
    rewriteLocalForwardFrom target used forwards requireSuffix segments prefixLen =
      some (key, targets) → key ∉ used ∧ key ∈ forwards
  | 0, h => by cases h
  | prefixLen + 1, h => by
    unfold rewriteLocalForwardFrom at h
    dsimp only at h
    split at h
    · exact key_of_rewriteLocalForwardFrom h
    · next hskip =>
      split at h
      · exact key_of_rewriteLocalForwardFrom h
      · next forwarded hforwarded =>
        split at h
        · exact key_of_rewriteLocalForwardFrom h
        · obtain ⟨rfl, -⟩ := Prod.mk.inj (some.inj h)
          exact ⟨fun hused => hskip (Or.inr hused), AList.lookup_isSome.mp (by rw [hforwarded]; rfl)⟩

theorem mem_aliasTargets {m t : Moniker}
    (h : t ∈ (f.recorded.rust.byRustAlias.lookup m).getD []) : t ∈ f.aliasTargets := by
  have hkey : m ∈ f.recorded.rust.byRustAlias := by
    refine AList.lookup_isSome.mp ?_
    cases hm : f.recorded.rust.byRustAlias.lookup m with
    | none => simp [hm] at h
    | some targets => rfl
  exact List.mem_toFinset.mpr (mem_flatMap.mpr ⟨m, AList.mem_keys.mp hkey, h⟩)

/-- What a turn may put on the stack. -/
theorem step_of_forwardedTargets {a b : PendingTarget} (h : b ∈ f.forwardedTargets a) :
    f.StayStep a b ∨ f.LocalStep a b := by
  have hmem := h
  unfold forwardedTargets at h
  split at h
  · next target targets haliases =>
    obtain ⟨t, ht, rfl⟩ := List.mem_map.mp h
    exact Or.inl ⟨Or.inr (mem_aliasTargets (haliases ▸ ht)), rfl⟩
  · split at h
    · next key targets hlocal =>
      obtain ⟨t, -, rfl⟩ := List.mem_map.mp h
      have hkey : key ∉ a.2 ∧ key ∈ f.localKeys := by
        rcases or_eq_some_iff.mp hlocal with hlocal | ⟨-, hlocal⟩
        · obtain ⟨hused, hkey⟩ := key_of_rewriteLocalForwardFrom hlocal
          exact ⟨hused, List.mem_toFinset.mpr (mem_append_left _ (AList.mem_keys.mp hkey))⟩
        · obtain ⟨hused, hkey⟩ := key_of_rewriteLocalForwardFrom hlocal
          exact ⟨hused, List.mem_toFinset.mpr (mem_append_right _ (AList.mem_keys.mp hkey))⟩
      exact Or.inr ⟨hmem, key, hkey.2, hkey.1, rfl⟩
    · obtain ⟨t, ht, rfl⟩ := List.mem_map.mp h
      exact Or.inl ⟨Or.inl ht, rfl⟩

theorem finite_orbit_stayStep (h : ∀ t, (orbit f.PublicStep t).Finite) (a : PendingTarget) :
    (orbit f.StayStep a).Finite := by
  have hjump := finite_orbit_jump h f.aliasTargets.finite_toSet a.1
  refine (hjump.image (·, a.2)).subset fun b hb => ?_
  have hstays : b.1 ∈ orbit (fun t t' => f.PublicStep t t' ∨ t' ∈ f.aliasTargets) a.1 ∧
      b.2 = a.2 := by
    induction hb with
    | refl => exact ⟨mem_orbit_self _ _, rfl⟩
    | tail _ hbc ih => exact ⟨orbit_next ih.1 hbc.1, hbc.2.trans ih.2⟩
  exact ⟨b.1, hstays.1, Prod.ext rfl hstays.2.symm⟩

/-- The local forwards that are left for an item. -/
def keysLeft (f : BindingForwards ForwardTables) (a : PendingTarget) : ℕ :=
  (f.localKeys \ a.2.toFinset).card

theorem keysLeft_lt {a b : PendingTarget} (h : f.LocalStep a b) : f.keysLeft b < f.keysLeft a := by
  obtain ⟨-, key, hkey, hused, hb⟩ := h
  rw [keysLeft, keysLeft, hb, toFinset_cons, Finset.sdiff_insert]
  exact Finset.card_erase_lt_of_mem (Finset.mem_sdiff.mpr ⟨hkey, by simpa using hused⟩)

theorem followAliases_done (h : ∀ t, (orbit f.PublicStep t).Finite) (targets : List Moniker) :
    ∃ fuel leaves, f.followAliases fuel targets = .done leaves := by
  have hrank : ∀ a b, f.StayStep a b → f.keysLeft b ≤ f.keysLeft a := fun a b hab => by
    rw [keysLeft, keysLeft, hab.2]
  have hdrop : ∀ a b, f.LocalStep a b → f.keysLeft b < f.keysLeft a := fun a b hab =>
    keysLeft_lt hab
  have horbit := finite_orbit_drop (finite_orbit_stayStep h) hrank hdrop fun a =>
    (f.forwardedTargets a).finite_toSet.subset fun b hb => hb.1
  refine seenLoop_done (s := ⋃ t ∈ {t | t ∈ targets}, orbit
    (fun a b => f.StayStep a b ∨ f.LocalStep a b) (t, []))
    (targets.finite_toSet.biUnion fun t _ => horbit (t, [])) (fun a ha b hb => ?_) ∅ [] _
    fun a ha => ?_
  · obtain ⟨t, ht, ha⟩ := Set.mem_iUnion₂.mp ha
    exact Set.mem_iUnion₂.mpr ⟨t, ht, orbit_next ha (step_of_forwardedTargets hb)⟩
  · obtain ⟨t, ht, rfl⟩ := List.mem_map.mp (mem_reverse.mp ha)
    exact Set.mem_iUnion₂.mpr ⟨t, ht, mem_orbit_self _ _⟩

end Ends

/-! ## External targets -/

section External

variable {f : BindingForwards ForwardTables}

theorem rustScopeKind_externalPkg : rustScopeKind (byteString "external_pkg") = true := by decide

/-- The path of an external target starts with its package. -/
theorem pathSegments_external (h : IsExternal target) :
    ∃ head segments, pathSegments target = head :: segments ∧
      head.kind = byteString "external_pkg" := by
  obtain ⟨head, segments, hsegments, hkind⟩ := h
  have hcrate : isCrateFile head = false := by
    rw [isCrateFile, hkind]
    simp only [decide_eq_false_iff_not, not_and]
    exact fun hmodule => absurd hmodule (by decide)
  exact ⟨head, segments.filter fun s => !isCrateFile s, by
    rw [pathSegments, hsegments, filter_cons_of_pos (by simp [hcrate])], hkind⟩

theorem not_outsideExternal {project : Bytes} {head : Segment} {segments : List Segment}
    (h : head.kind = byteString "external_pkg") :
    ¬RustForwards.OutsideExternal (project, localAliasPath (head :: segments)) := by
  intro hout
  refine hout (rustLocalAliasSegmentKey head (0 + 1 = (head :: segments).length)) ?_ ?_
  · exact List.mem_map.mpr ⟨(head, 0), by simp [zipIdx_cons], rfl⟩
  · rw [rustLocalAliasSegmentKey, h, rustScopeKind_externalPkg]
    simp

theorem rewriteLocalForwardExcluding_external (h : IsExternal target)
    {forwards : Forwards RustLocalAliasKey}
    (hforwards : ∀ key ∈ forwards, RustForwards.OutsideExternal key)
    (used : List RustLocalAliasKey) (requireSuffix : Bool) :
    rewriteLocalForwardExcluding target used forwards requireSuffix = none := by
  obtain ⟨head, segments, hsegments, hkind⟩ := pathSegments_external h
  have hfrom : ∀ n, rewriteLocalForwardFrom target used forwards requireSuffix (head :: segments) n =
      none := by
    intro n
    induction n with
    | zero => rfl
    | succ n ih =>
      have hkey : forwards.lookup
          (target.project, localAliasPath ((head :: segments).take (n + 1))) = none :=
        AList.lookup_eq_none.mpr fun hmem => not_outsideExternal hkind (hforwards _ hmem)
      simp only [rewriteLocalForwardFrom, hkey, ih, ite_self]
  rw [rewriteLocalForwardExcluding, hsegments, hfrom]

/-- Only public forwards rewrite an external target. -/
theorem forwardedTargets_external (hf : f.recorded.rust.Keyed) {a : PendingTarget}
    (h : IsExternal a.1) : f.forwardedTargets a = (f.rewriteExternalMember a.1).map (·, a.2) := by
  have haliases : f.recorded.rust.byRustAlias.lookup a.1 = none :=
    AList.lookup_eq_none.mpr fun hmem => hf.aliases _ hmem h
  rw [forwardedTargets, rewriteLocalAliasExcluding, haliases,
    rewriteLocalForwardExcluding_external h hf.localAlias,
    rewriteLocalForwardExcluding_external h hf.localWildcard]
  rfl

theorem isExternal_of_publicStep {t t' : Moniker} (h : f.PublicStep t t') : IsExternal t := by
  unfold PublicStep rewriteExternalMember at h
  split at h
  · simp at h
  · next head segments hsegments =>
    split_ifs at h with hkind
    · simp at h
    · exact ⟨head, segments, hsegments, not_not.mp hkind⟩

/-- What a loop that has ended has seen. -/
theorem finite_orbit_publicStep (hf : f.recorded.rust.Keyed) {targets leaves : List Moniker}
    {fuel : ℕ} (h : f.followAliases fuel targets = .done leaves) {t : Moniker} (ht : t ∈ targets) :
    (orbit f.PublicStep t).Finite := by
  obtain ⟨final, -, hpending, hclosed⟩ := seenLoop_closed h
  refine final.finite_toSet.subset fun c hc => ?_
  rw [Finset.mem_coe]
  induction hc with
  | refl => exact hpending (t, []) (mem_reverse.mpr (List.mem_map.mpr ⟨t, ht, rfl⟩))
  | @tail b c _ hbc ih =>
    obtain ⟨a, rfl, ha⟩ := (hclosed b ih).resolve_left (by simp)
    rw [forwardedTargets_external hf (isExternal_of_publicStep hbc)] at ha
    exact ha (c, a.2) (List.mem_map.mpr ⟨c, hbc, rfl⟩)

end External

/-- The calls for a target come back. -/
def Returns (f : BindingForwards ForwardTables) (target : Moniker) : Prop :=
  (∃ fuel leaves, f.followAliases fuel [target] = .done leaves) ∧
    ∃ fuel leaves result, f.rewriteNamed fuel target = .done leaves ∧
      f.rewrite fuel target = .done result

/-- Whatever a workspace records, following its forwards ends on every target exactly when the
public paths lead from each target to finitely many. -/
theorem followAliases_ends_iff {p : PackagePolicy} {manifests : ManifestPolicy}
    {m : CodeIndexMaterial} (hm : RustDefinitionsLocal m) {f : BindingForwards ForwardTables}
    (hf : ofMaterial p manifests m = some f) :
    (∀ target, f.Returns target) ↔ ∀ target, (orbit f.PublicStep target).Finite := by
  constructor
  · intro h target
    obtain ⟨⟨fuel, leaves, hleaves⟩, -⟩ := h target
    exact finite_orbit_publicStep (keyed_of_ofMaterial hm hf) hleaves mem_cons_self
  · intro h target
    refine ⟨followAliases_done h [target], ?_⟩
    obtain ⟨fuel, leaves, hleaves⟩ := followAliases_done h (f.forwardedFrom target)
    exact ⟨fuel, leaves, _, hleaves, by rw [rewrite, rewriteNamed, hleaves]⟩

/-! ## A re-export below its own path

The package `a` depends on another package under the same name, and exports `a::c::d` as `c`. -/

section SelfReexport

def crateRoot : Moniker :=
  dotMoniker [("lang", "rs"), ("dir", "src"), ("module", "lib")] (by decide)

def exportedName : Moniker :=
  dotMoniker [("lang", "rs"), ("dir", "src"), ("module", "lib"), ("path", "c")] (by decide)

variable (n : ℕ)

/-- The path `c` of the package with `n` times `d` below. -/
def grownPath : List (String × String) :=
  [("external_pkg", "a"), ("path", "c")] ++ List.replicate n ("path", "d")

theorem admitted_grownPath : ∀ s ∈ (grownPath n).map segmentOf, s.Admitted := by
  intro s hs
  have hhead : ∀ part ∈ [("external_pkg", "a"), ("path", "c")], (segmentOf part).Admitted := by
    decide
  have hrest : (segmentOf ("path", "d")).Admitted := by decide
  obtain ⟨part, hpart, rfl⟩ := List.mem_map.mp hs
  rcases mem_append.mp hpart with hpart | hpart
  · exact hhead part hpart
  · rw [eq_of_mem_replicate hpart]
    exact hrest

def grown : Moniker := dotMoniker (grownPath n) (admitted_grownPath n)

def selfReexport : RefRecord where
  source := 0
  target := grown 1
  kind := byteString "reexports"
  position := none
  receiverHint := []
  aliasName := byteString "c"
  confidence := byteString "external"
  callName := []
  callArity := none
  binding := []

def selfFile : IndexedSourceFile where
  sourceRoot := 0
  path := "src/lib.rs"
  lang := .rs
  graph := { CodeGraph.withRoot crateRoot (byteString "module") with refs := [selfReexport] }

def selfMaterial : CodeIndexMaterial := ⟨[⟨selfFile, false⟩]⟩

def selfManifests : ManifestPolicy where
  entriesByRoot := (∅ : AList fun _ : ℕ => List ManifestEntry).insert 0
    [⟨some ⟨"a", "src/lib.rs"⟩⟩]
  entryByFile := (∅ : AList fun _ : ℕ => ℕ × ℕ).insert 0 (0, 0)
  absolutePath := id

def selfPackages : PackagePolicy :=
  (∅ : AList fun _ : ℕ => PackageEntry).insert 0 ⟨.cargo, [⟨.cargo, "a"⟩], [⟨.cargo, "a"⟩]⟩

/-- What the file records. -/
def selfTables : RustForwards :=
  ((RustForwards.empty.insertLocalAlias (rustLocalAliasKey exportedName) (grown 1)).insertAlias
    exportedName (grown 1)).insertMember [byteString "c"] (grown 1) (byteString "a")

def selfForwards : BindingForwards ForwardTables where
  byCrateRoot := (∅ : AList fun _ : Bytes => Moniker).insert (byteString "a") crateRoot
  recorded := ⟨∅, ∅, selfTables⟩

theorem segments_crateRoot : crateRoot.segments =
    [("lang", "rs"), ("dir", "src"), ("module", "lib")].map segmentOf :=
  segments_dotMoniker _

theorem segments_grown : (grown n).segments = (grownPath n).map segmentOf :=
  segments_dotMoniker (admitted_grownPath n)

theorem extendMoniker_crateRoot :
    extendMoniker crateRoot [⟨byteString "path", byteString "c"⟩] = some exportedName := by
  have hproject : crateRoot.project = byteString "." := project_dotMoniker _
  rw [extendMoniker, segments_crateRoot, hproject]
  exact @dotMoniker_of_tryMoniker
    [("lang", "rs"), ("dir", "src"), ("module", "lib"), ("path", "c")] _

def crateDef : DefRecord where
  moniker := crateRoot
  kind := byteString "module"
  parent := none
  position := none
  visibility := []
  signature := []
  callName := []
  callArity := none
  binding := byteString "export"
  origin := byteString "extracted"

theorem recordForward_selfReexport :
    recordForward selfPackages .rs ⟨0, crateDef, selfReexport⟩ .empty =
      some ⟨∅, ∅, selfTables⟩ := by
  have htarget : selfReexport.target.segments =
      [("external_pkg", "a"), ("path", "c"), ("path", "d")].map segmentOf := segments_grown 1
  have hnotModule : isModule selfReexport.target = false := by
    rw [isModule, htarget]
    decide
  have hisModule : isModule crateDef.moniker = true := by
    rw [isModule, show crateDef.moniker = crateRoot from rfl, segments_crateRoot]
    decide
  have hwildcard : rustWildcardReexport selfReexport = false := by
    rw [rustWildcardReexport, hnotModule, Bool.and_false]
  have haliases : rustReexportAliasMoniker crateDef selfReexport = some (some exportedName) := by
    have hmember : rustReexportMember selfReexport = some (byteString "c") := by
      rw [rustReexportMember, if_pos (by decide)]
      rfl
    rw [rustReexportAliasMoniker, hmember]
    exact congrArg (Option.map some) extendMoniker_crateRoot
  have hmodulePath : rustModulePath crateDef = [] := by
    rw [rustModulePath, show crateDef.moniker = crateRoot from rfl, segments_crateRoot]
    decide
  have hpath : rustPublicReexportPath crateDef selfReexport = some [byteString "c"] := by
    rw [rustPublicReexportPath, htarget, hisModule, hmodulePath]
    rfl
  have hauthorized : selfPackages.authorizesReexportTarget 0 selfReexport.target = true := by
    rw [PackagePolicy.authorizesReexportTarget, htarget]
    decide
  have hlocal : empty.recordLocalBinding ⟨0, crateDef, selfReexport⟩ =
      some (empty.insertLocalAlias (rustLocalAliasKey exportedName) (grown 1)) := by
    have hmacro : empty.recordMacroUse ⟨0, crateDef, selfReexport⟩ =
        empty := if_neg (by decide)
    rw [recordLocalBinding, hmacro]
    dsimp only
    rw [if_neg (by decide), if_neg (by simp [hwildcard]), haliases]
    rfl
  have hbare : bareExternalRoot selfReexport.target = none := by
    rw [bareExternalRoot, htarget]
    rfl
  have hmember : ∀ f : RustForwards, f.recordMember selfPackages ⟨0, crateDef, selfReexport⟩ =
      some ((f.insertAlias exportedName (grown 1)).insertMember [byteString "c"] (grown 1)
        (byteString "a")) := by
    intro f
    rw [recordMember]
    dsimp only
    rw [hauthorized, if_neg (by decide), hpath]
    dsimp only
    rw [hwildcard, haliases]
    rfl
  have hbarrel : wildcardBarrel crateDef selfReexport = none := by
    rw [wildcardBarrel, hnotModule]
    exact if_neg (by simp)
  rw [recordForward, if_pos rfl, show ForwardTables.empty.rust =
    empty from rfl, hlocal, bind_some, ForwardTables.recordReexport,
    if_neg (by decide), hbare]
  dsimp only
  rw [if_pos rfl, hmember, map_some, recordBarrel, hbarrel]
  rfl

theorem ofMaterial_self : ofMaterial selfPackages selfManifests selfMaterial =
    some selfForwards := by
  have hroot : rustFileModule selfFile = some (some crateRoot) := by
    have hmodule :
        (crateRoot.segments.getLast?.any fun s => s.kind = byteString "module") = true := by
      rw [segments_crateRoot]
      decide
    have hgraph : selfFile.graph.root = some crateRoot := rfl
    rw [rustFileModule, hgraph, map_some, if_pos hmodule]
  have hinsert : insertCrateRoot selfManifests ⟨∅, some ForwardTables.empty⟩ (selfFile, 0) =
      some ⟨selfForwards.byCrateRoot, some .empty⟩ := by
    have himport : selfManifests.rustLibraryImportRootForFile 0 selfFile.path = some "a" := rfl
    have hlang : selfFile.lang = .rs := rfl
    rw [insertCrateRoot, himport]
    dsimp only
    rw [if_pos hlang, hroot]
    rfl
  have hfile : insertFile (fun lang site t => t.bind (recordForward selfPackages lang
      site)) selfManifests ⟨∅, some ForwardTables.empty⟩ (selfFile, 0) =
      some ⟨selfForwards.byCrateRoot, some ⟨∅, ∅, selfTables⟩⟩ := by
    rw [insertFile, hinsert, bind_eq_bind, bind_some]
    have hrefs : selfFile.graph.refs = [selfReexport] := rfl
    have hdef : selfFile.graph.defAt selfReexport.source = some crateDef := rfl
    have hreference : insertReference (fun lang site t => t.bind (recordForward
        selfPackages lang site)) (selfFile, 0) ⟨selfForwards.byCrateRoot, some .empty⟩ selfReexport =
          some ⟨selfForwards.byCrateRoot, some ⟨∅, ∅, selfTables⟩⟩ := by
      rw [insertReference, hdef, map_some]
      exact congrArg (fun t => some (BindingForwards.mk _ t)) recordForward_selfReexport
    rw [hrefs, foldlM_cons, hreference]
    rfl
  have hbuild : build (fun lang site t => t.bind (recordForward selfPackages lang
      site)) selfManifests selfMaterial (some .empty) =
      some ⟨selfForwards.byCrateRoot, some ⟨∅, ∅, selfTables⟩⟩ := by
    rw [build, show selfMaterial.files.zipIdx = [(selfFile, 0)] from rfl, foldlM_cons, hfile]
    rfl
  rw [ofMaterial, hbuild]
  rfl

theorem rustDefinitionsLocal_self : RustDefinitionsLocal selfMaterial := by
  intro file hfile _ d hd s hs
  obtain rfl : file = selfFile := mem_singleton.mp hfile
  obtain rfl : d = crateDef := mem_singleton.mp hd
  have hkinds : ∀ s ∈ [("lang", "rs"), ("dir", "src"), ("module", "lib")].map segmentOf,
      s.kind ≠ byteString "external_pkg" := by decide
  exact hkinds s (segments_crateRoot ▸ hs)

/-- The forwards of the workspace with the re-export, on every target at once. -/
theorem followAliases_ends_iff_self : (∀ target, selfForwards.Returns target) ↔
    ∀ target, (orbit selfForwards.PublicStep target).Finite :=
  followAliases_ends_iff rustDefinitionsLocal_self ofMaterial_self

theorem lookup_byRustPrefix_self {path : List Bytes} (h : path ≠ [byteString "c"]) :
    selfForwards.recorded.rust.byRustPrefix.lookup (byteString "a", path) = none := by
  refine AList.lookup_eq_none.mpr fun hmem => ?_
  rcases mem_insertRustForward.mp hmem with hkey | hmem
  · exact h (Prod.mk.inj hkey).2
  · exact AList.notMem_empty _ hmem

theorem lookup_byRustMember_self {path : List Bytes} (h : path ≠ [byteString "c"]) :
    selfForwards.recorded.rust.byRustMember.lookup (byteString "a", path) = none := by
  refine AList.lookup_eq_none.mpr fun hmem => ?_
  rcases mem_insertRustForward.mp hmem with hkey | hmem
  · exact h (Prod.mk.inj hkey).2
  · exact AList.notMem_empty _ hmem

theorem extendMoniker_grown :
    extendMoniker (grown 1) (List.replicate n (segmentOf ("path", "d"))) = some (grown (n + 1)) := by
  have hproject : (grown 1).project = byteString "." := project_dotMoniker _
  have hpath : (grownPath 1).map segmentOf ++ List.replicate n (segmentOf ("path", "d")) =
      (grownPath (n + 1)).map segmentOf := by
    simp [grownPath, replicate_succ]
  rw [extendMoniker, hproject, segments_grown, hpath]
  exact dotMoniker_of_tryMoniker (admitted_grownPath (n + 1))

/-- Every longer prefix is missing. -/
theorem rewritePrefix_grown (n : ℕ) : ∀ {k : ℕ}, k ≤ n → selfForwards.rewritePrefix (byteString "a")
      (segmentOf ("path", "c") :: List.replicate n (segmentOf ("path", "d"))) (k + 1) =
        [grown (n + 1)]
  | 0, _ => by
    have hfound : selfForwards.recorded.rust.byRustPrefix.lookup
        (byteString "a", [byteString "c"]) = some [grown 1] := rfl
    have hkey : ((segmentOf ("path", "c") :: List.replicate n (segmentOf ("path", "d"))).take
        (0 + 1)).map (·.name) = [byteString "c"] := rfl
    rw [rewritePrefix, hkey, hfound]
    simp [extendMoniker_grown]
  | k + 1, hk => by
    have hmissing : ((segmentOf ("path", "c") :: List.replicate n (segmentOf ("path", "d"))).take
        (k + 1 + 1)).map (·.name) ≠ [byteString "c"] := by
      intro h
      have hlen := congrArg List.length h
      simp only [length_map, length_take, length_cons, length_replicate, length_nil] at hlen
      omega
    rw [rewritePrefix, lookup_byRustPrefix_self hmissing]
    exact rewritePrefix_grown n (Nat.le_of_succ_le hk)

theorem rewriteExternalMember_grown :
    selfForwards.rewriteExternalMember (grown (n + 1)) = [grown (n + 2)] := by
  have hsegments : (grown (n + 1)).segments = segmentOf ("external_pkg", "a") ::
      segmentOf ("path", "c") :: List.replicate (n + 1) (segmentOf ("path", "d")) := by
    rw [segments_grown]
    simp [grownPath]
  have hmissing : (segmentOf ("path", "c") :: List.replicate (n + 1) (segmentOf ("path", "d"))).map
      (·.name) ≠ [byteString "c"] := by
    intro h
    have hlen := congrArg List.length h
    simp at hlen
  rw [rewriteExternalMember, hsegments]
  dsimp only
  rw [if_neg (by decide), show (segmentOf ("external_pkg", "a")).name = byteString "a" from rfl,
    lookup_byRustMember_self hmissing]
  simp only [length_cons, length_replicate]
  exact rewritePrefix_grown (n + 1) le_rfl

theorem grown_mem_orbit : grown (n + 2) ∈ orbit selfForwards.PublicStep (grown 2) := by
  induction n with
  | zero => exact mem_orbit_self _ _
  | succ n ih =>
    refine orbit_next ih ?_
    rw [PublicStep, rewriteExternalMember_grown]
    exact mem_cons_self

theorem grown_injective : Function.Injective fun n => grown (n + 2) := by
  intro n k h
  have hlen := congrArg (fun m : Moniker => m.segments.length) h
  simp only [segments_grown, grownPath, length_map, length_append, length_cons,
    length_nil, length_replicate] at hlen
  omega

/-- The target of the re-export is followed for ever. -/
theorem followAliases_grows :
    ofMaterial selfPackages selfManifests selfMaterial = some selfForwards ∧
      ∀ fuel, selfForwards.rewriteNamed fuel (grown 1) = .running := by
  refine ⟨ofMaterial_self, fun fuel => ?_⟩
  have hkeyed := keyed_of_ofMaterial rustDefinitionsLocal_self ofMaterial_self
  have hsegments : (grown 1).segments = [segmentOf ("external_pkg", "a"), segmentOf ("path", "c"),
      segmentOf ("path", "d")] := segments_grown 1
  have hexternal : IsExternal (grown 1) := ⟨_, _, hsegments, by decide⟩
  have hmacro : selfForwards.rewriteMacroScope (grown 1) = [] := by
    rw [rewriteMacroScope, hsegments]
    cases (grown 1).parent <;> rfl
  have hroot : selfForwards.rewriteCrateRoot (grown 1) = [] := by
    rw [rewriteCrateRoot, ForwardTables.bareExternalRoot, hsegments]
  have hlocal : selfForwards.rewriteLocalAlias (grown 1) = [] := by
    rw [rewriteLocalAlias, rewriteLocalAliasExcluding,
      rewriteLocalForwardExcluding_external hexternal hkeyed.localAlias]
    rfl
  have hfrom : selfForwards.forwardedFrom (grown 1) = [grown 2] := by
    rw [forwardedFrom, hmacro, hroot, hlocal, rewriteExternalMember_grown]
  rw [rewriteNamed, hfrom]
  cases hrun : selfForwards.followAliases fuel [grown 2] with
  | running => rfl
  | panic => exact absurd hrun (seenLoop_ne_panic _ _ _ _)
  | done leaves =>
    have hfinite := finite_orbit_publicStep hkeyed hrun mem_cons_self
    exact absurd hfinite (Set.infinite_of_injective_forall_mem grown_injective grown_mem_orbit)

end SelfReexport

end BindingForwards

end CodeMoniker
