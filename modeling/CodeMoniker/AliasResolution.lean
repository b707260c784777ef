import CodeMoniker.CodeGraphBuild
import CodeMoniker.RefText

/-!
# Aliases of rule expressions

An expression refers to an alias as `$name`. `resolve_aliases` expands the alias table once,
depth first with a table of the finished expansions and a stack that finds cycles;
`substitute_aliases` then replaces the references of an expression. What they return is the
expansion of the texts (`resolveAliases_eq_ok`, `substituteAliases_eq_ok_iff`), and resolution
succeeds exactly when every alias has one (`resolveAliases_ok_iff`).
-/

namespace CodeMoniker

open List ByteCodec RefText Except

/-! ## References -/

abbrev Aliases := AList fun _ : Bytes => Bytes

def isAliasByte (b : UInt8) : Bool := isAsciiAlphanumeric b || b == 0x5f

/-- `$` and a longest run of ASCII letters, digits and `_`. -/
def aliasGrammar : Grammar UInt8 := ⟨0x24, isAliasByte, by decide⟩

/-- A byte of the text is written as the character of its value, an expansion in
parentheses. -/
def aliasOutput : Output UInt8 UInt8 where
  lit b := String.utf8EncodeChar (Char.ofNat b.toNat)
  wrap v := byteString "(" ++ v ++ byteString ")"

inductive ConfigError where
  | unknownAlias (name at_ : Bytes)
  | aliasCycle (chain : Bytes)
  | invalidFragmentId (path id : Bytes)
  | invalidFragmentRuleId (path fragment id : Bytes)
  | invalidFragmentAliasId (path fragment alias_ : Bytes)
  | fragmentRuleMissingId (path fragment at_ : Bytes)
  | fragmentRequireDocUnsupported (path fragment at_ : Bytes)
  | fragmentAliasShadowsExisting (path fragment alias_ : Bytes)
  | fragmentAliasCollision (alias_ path existing : Bytes)
  | fragmentRuleCollision (ruleId path existing : Bytes)
  | sourceGroupOutsideProjectRoot (path : Bytes)
  | invalidWorkspaceCoverage (value : ℕ)
  | workspaceRequireDocUnsupported
  | invalidWorkspaceGroup (at_ message : Bytes)
  | invalidWorkspacePath (at_ message : Bytes)
  | unknownShape (section_ shape allowed : Bytes)
  | defaultShapeUnsupported
  | unknownKind (section_ kind allowed : Bytes)
  | unknownDocVisibility (section_ kind value allowed : Bytes)
  deriving DecidableEq

/-! ## Resolution -/

/-- The aliases that are not on the stack. -/
def offStack (src : Aliases) (stack : List Bytes) : List Bytes := src.keys.filter (· ∉ stack)

variable {src : Aliases}

theorem offStack_push {stack : List Bytes} {name body : Bytes}
    (hstack : name ∉ stack) (h : src.lookup name = some body) :
    (offStack src (stack ++ [name])).length < (offStack src stack).length := by
  have hkey : name ∈ src.keys := by
    rw [← AList.mem_keys, ← AList.lookup_isSome, h]
    rfl
  have hmem : name ∈ offStack src stack := mem_filter.mpr ⟨hkey, by simpa using hstack⟩
  have heq : offStack src (stack ++ [name]) = (offStack src stack).filter (· ≠ name) := by
    simp only [offStack, filter_filter]
    exact filter_congr fun n _ => by simp [and_comm]
  rw [heq]
  exact length_filter_lt_length_iff_exists.mpr ⟨name, hmem, by simp⟩

mutual

/-- The expansion of one alias and the table with what was finished on the way. -/
def resolveOne (src : Aliases) (name : Bytes) (resolved : Aliases) (stack : List Bytes) :
    Except ConfigError (Bytes × Aliases) :=
  match resolved.lookup name with
  | some v => .ok (v, resolved)
  | none =>
    if _hstack : name ∈ stack then
      .error (.aliasCycle (List.intercalate (byteString " → ") (stack ++ [name])))
    else
      match _h : src.lookup name with
      | none =>
        .error (.unknownAlias name
          (byteString "alias `" ++ stack.getLast?.getD (byteString "<root>") ++ byteString "`"))
      | some body =>
        match expandRefs src (scan aliasGrammar body) resolved (stack ++ [name]) with
        | .error e => .error e
        | .ok (expanded, resolved) => .ok (expanded, resolved.insert name expanded)
termination_by ((offStack src stack).length, 0)
decreasing_by
  exact Prod.Lex.left _ _ (offStack_push _hstack _h)

def expandRefs (src : Aliases) (tokens : List (Token UInt8)) (resolved : Aliases)
    (stack : List Bytes) : Except ConfigError (Bytes × Aliases) :=
  match tokens with
  | [] => .ok ([], resolved)
  | .lit b :: tokens =>
    match expandRefs src tokens resolved stack with
    | .error e => .error e
    | .ok (out, resolved) => .ok (aliasOutput.lit b ++ out, resolved)
  | .ref name :: tokens =>
    match resolveOne src name resolved stack with
    | .error e => .error e
    | .ok (v, resolved) =>
      match expandRefs src tokens resolved stack with
      | .error e => .error e
      | .ok (out, resolved) => .ok (aliasOutput.wrap v ++ out, resolved)
termination_by ((offStack src stack).length, tokens.length + 1)

end

def resolveAliases (src : Aliases) : Except ConfigError Aliases :=
  src.keys.foldlM (fun resolved name => (resolveOne src name resolved []).map (·.2)) ∅

/-- The loop over an expression. `at_` is where an unknown alias is reported. -/
def substituteTokens (resolved : Aliases) (at_ : Bytes) :
    List (Token UInt8) → Except ConfigError Bytes
  | [] => .ok []
  | .lit b :: tokens => (substituteTokens resolved at_ tokens).map (aliasOutput.lit b ++ ·)
  | .ref name :: tokens =>
    match resolved.lookup name with
    | none => .error (.unknownAlias name at_)
    | some v => (substituteTokens resolved at_ tokens).map (aliasOutput.wrap v ++ ·)

def substituteAliases (expr : Bytes) (resolved : Aliases) (at_ : Bytes) : Except ConfigError Bytes :=
  substituteTokens resolved at_ (scan aliasGrammar expr)

/-! ## What resolution returns -/

/-- The expansion of an alias of the table. -/
noncomputable def aliasExpansion (src : Aliases) (name : Bytes) : Option Bytes :=
  expansion aliasGrammar aliasOutput (fun n => src.lookup n) name

/-- Every finished expansion is the right one. -/
def Correct (src resolved : Aliases) : Prop :=
  ∀ name v, resolved.lookup name = some v → aliasExpansion src name = some v

theorem correct_empty (src : Aliases) : Correct src ∅ := fun name v h => by simp at h

variable {src resolved : Aliases}

theorem Correct.insert (h : Correct src resolved) {name v : Bytes}
    (hv : aliasExpansion src name = some v) : Correct src (resolved.insert name v) := by
  intro n w hw
  by_cases hn : n = name
  · subst hn
    rw [AList.lookup_insert] at hw
    rw [hv, hw]
  · rw [AList.lookup_insert_ne hn] at hw
    exact h n w hw

/-- A table that holds at least the names of another one. -/
def Keeps (resolved resolved' : Aliases) : Prop := ∀ name ∈ resolved, name ∈ resolved'

mutual

theorem resolveOne_sound {src resolved resolved' : Aliases} {name v : Bytes} {stack : List Bytes}
    (hr : Correct src resolved) (h : resolveOne src name resolved stack = .ok (v, resolved')) :
    Correct src resolved' ∧ Keeps resolved resolved' ∧ resolved'.lookup name = some v := by
  rw [resolveOne] at h
  split at h
  · next w hw =>
    obtain ⟨rfl, rfl⟩ := Prod.mk.inj (ok.inj h)
    exact ⟨hr, fun _ hn => hn, hw⟩
  · next hnone =>
    split_ifs at h with hstack
    split at h
    · cases h
    · next body hbody =>
      split at h
      · cases h
      · next expanded done hexpand =>
        obtain ⟨rfl, rfl⟩ := Prod.mk.inj (ok.inj h)
        have hlt := offStack_push hstack hbody
        obtain ⟨hdone, hkeeps, hout⟩ := expandRefs_sound hr hexpand
        have hv : aliasExpansion src name = some expanded := by
          rw [aliasExpansion, expansion_eq, hbody]
          exact hout
        refine ⟨hdone.insert hv, fun n hn => ?_, AList.lookup_insert _⟩
        exact (AList.mem_insert _).mpr (Or.inr (hkeeps n hn))
termination_by ((offStack src stack).length, 0)
decreasing_by
  exact Prod.Lex.left _ _ ‹_›

theorem expandRefs_sound {src resolved resolved' : Aliases} {tokens : List (Token UInt8)}
    {out : Bytes} {stack : List Bytes} (hr : Correct src resolved)
    (h : expandRefs src tokens resolved stack = .ok (out, resolved')) :
    Correct src resolved' ∧ Keeps resolved resolved' ∧
      expandTokens aliasOutput (aliasExpansion src) tokens = some out := by
  match tokens, h with
  | [], h =>
    rw [expandRefs] at h
    obtain ⟨rfl, rfl⟩ := Prod.mk.inj (ok.inj h)
    exact ⟨hr, fun _ hn => hn, rfl⟩
  | .lit b :: tokens, h =>
    rw [expandRefs] at h
    split at h
    · cases h
    · next rest done hrest =>
      obtain ⟨rfl, rfl⟩ := Prod.mk.inj (ok.inj h)
      obtain ⟨hdone, hkeeps, hout⟩ := expandRefs_sound hr hrest
      exact ⟨hdone, hkeeps, by rw [expandTokens, hout]; rfl⟩
  | .ref name :: tokens, h =>
    rw [expandRefs] at h
    split at h
    · cases h
    · next v one hone =>
      split at h
      · cases h
      · next rest done hrest =>
        obtain ⟨rfl, rfl⟩ := Prod.mk.inj (ok.inj h)
        obtain ⟨hcorrect, hkeeps, hv⟩ := resolveOne_sound hr hone
        obtain ⟨hdone, hkeeps', hout⟩ := expandRefs_sound hcorrect hrest
        refine ⟨hdone, fun n hn => hkeeps' n (hkeeps n hn), ?_⟩
        rw [expandTokens, hcorrect name v hv, Option.bind_some, hout]
        rfl
termination_by ((offStack src stack).length, tokens.length + 1)

end

/-! ## When resolution succeeds -/

/-- The expansion of an alias, at most `d` references deep. -/
def aliasExpandAt (src : Aliases) (d : ℕ) (name : Bytes) : Option Bytes :=
  expandAt aliasGrammar aliasOutput (fun n => src.lookup n) d name

theorem aliasExpansion_of_expandAt {d : ℕ} {name v : Bytes}
    (h : aliasExpandAt src d name = some v) : aliasExpansion src name = some v :=
  (expansion_eq_some_iff aliasGrammar aliasOutput).mpr ⟨d, h⟩

/-- The names on the stack need more than `d` references. A name that is expanded at `d` is
none of them, so no cycle is reported. -/
def Above (src : Aliases) (d : ℕ) (stack : List Bytes) : Prop :=
  ∀ name ∈ stack, aliasExpandAt src d name = none

theorem Above.pred {d : ℕ} {stack : List Bytes} (h : Above src (d + 1) stack) :
    Above src d stack := by
  intro name hname
  by_contra hne
  obtain ⟨v, hv⟩ := Option.ne_none_iff_exists'.mp hne
  have hsucc : aliasExpandAt src (d + 1) name = some v := expandAt_succ _ _ hv
  rw [h name hname] at hsucc
  cases hsucc

/-- Resolution of every name that is expanded at `d`. -/
def CompleteAt (src : Aliases) (d : ℕ) : Prop :=
  ∀ {name v : Bytes} {resolved : Aliases} {stack : List Bytes}, aliasExpandAt src d name = some v →
    Above src d stack → Correct src resolved →
      ∃ resolved', resolveOne src name resolved stack = .ok (v, resolved')

theorem expandRefs_complete {d : ℕ} (hd : CompleteAt src d) {stack : List Bytes}
    (habove : Above src d stack) : ∀ {tokens : List (Token UInt8)} {out : Bytes} {resolved : Aliases},
    expandTokens aliasOutput (aliasExpandAt src d) tokens = some out → Correct src resolved →
      ∃ resolved', expandRefs src tokens resolved stack = .ok (out, resolved')
  | [], out, resolved, h, _ => by
    obtain rfl := Option.some.inj h
    exact ⟨resolved, by rw [expandRefs]⟩
  | .lit b :: tokens, out, resolved, h, hr => by
    obtain ⟨rest, hrest, rfl⟩ := Option.map_eq_some_iff.mp h
    obtain ⟨done, hdone⟩ := expandRefs_complete hd habove hrest hr
    exact ⟨done, by rw [expandRefs, hdone]⟩
  | .ref name :: tokens, out, resolved, h, hr => by
    obtain ⟨v, hv, h⟩ := Option.bind_eq_some_iff.mp h
    obtain ⟨rest, hrest, rfl⟩ := Option.map_eq_some_iff.mp h
    obtain ⟨one, hone⟩ := hd hv habove hr
    obtain ⟨done, hdone⟩ := expandRefs_complete hd habove hrest (resolveOne_sound hr hone).1
    refine ⟨done, ?_⟩
    rw [expandRefs, hone]
    simp only [hdone]

theorem resolveOne_complete (src : Aliases) : ∀ d, CompleteAt src d
  | 0, name, v, _, _, h, _, _ => nomatch h
  | d + 1, name, v, resolved, stack, h, habove, hr => by
    cases hearlier : aliasExpandAt src d name with
    | some w =>
      -- the least depth decides which names are above
      have hw : aliasExpandAt src (d + 1) name = some w := expandAt_succ _ _ hearlier
      obtain rfl : w = v := Option.some.inj (hw.symm.trans h)
      exact resolveOne_complete src d hearlier habove.pred hr
    | none =>
      have hstack : name ∉ stack := fun hmem => by
        rw [habove name hmem] at h
        cases h
      obtain ⟨body, hbody, hout⟩ := Option.bind_eq_some_iff.mp h
      cases hdone : resolved.lookup name with
      | some w =>
        have hv := aliasExpansion_of_expandAt h
        rw [hr name w hdone] at hv
        obtain rfl := Option.some.inj hv
        exact ⟨resolved, by rw [resolveOne, hdone]⟩
      | none =>
        have hpush : Above src d (stack ++ [name]) := by
          intro n hn
          rcases mem_append.mp hn with hn | hn
          · exact habove.pred n hn
          · obtain rfl := mem_singleton.mp hn
            exact hearlier
        obtain ⟨done, hexpand⟩ :=
          expandRefs_complete (resolveOne_complete src d) hpush hout hr
        refine ⟨done.insert name v, ?_⟩
        rw [resolveOne]
        simp only [hdone, hstack, dite_false]
        split
        · next hnone => cases hnone.symm.trans hbody
        · next text htext =>
          obtain rfl : text = body := Option.some.inj (htext.symm.trans hbody)
          simp only [hexpand]

/-! ## Resolution of a table -/

theorem resolveKeys_sound : ∀ {keys : List Bytes} {resolved resolved' : Aliases},
    Correct src resolved →
    keys.foldlM (fun resolved name => (resolveOne src name resolved []).map (·.2)) resolved =
      .ok resolved' →
    Correct src resolved' ∧ Keeps resolved resolved' ∧ ∀ name ∈ keys, name ∈ resolved'
  | [], resolved, resolved', hr, h => by
    obtain rfl := ok.inj h
    exact ⟨hr, fun _ hn => hn, fun _ hn => nomatch hn⟩
  | key :: keys, resolved, resolved', hr, h => by
    rw [foldlM_cons] at h
    obtain ⟨one, hone, h⟩ := bind_eq_ok.mp h
    cases hkey : resolveOne src key resolved [] with
    | error e =>
      rw [hkey] at hone
      cases hone
    | ok result =>
      obtain ⟨v, one'⟩ := result
      rw [hkey] at hone
      obtain rfl : one' = one := ok.inj hone
      obtain ⟨hcorrect, hkeeps, hv⟩ := resolveOne_sound hr hkey
      obtain ⟨hdone, hkeeps', hkeys⟩ := resolveKeys_sound hcorrect h
      refine ⟨hdone, fun n hn => hkeeps' n (hkeeps n hn), fun n hn => ?_⟩
      rcases mem_cons.mp hn with rfl | hn
      · exact hkeeps' n (AList.lookup_isSome.mp (Option.isSome_of_mem hv))
      · exact hkeys n hn

theorem resolveKeys_complete : ∀ {keys : List Bytes} {resolved : Aliases},
    (∀ name ∈ keys, (aliasExpansion src name).isSome) → Correct src resolved →
    ∃ resolved', keys.foldlM
      (fun resolved name => (resolveOne src name resolved []).map (·.2)) resolved = .ok resolved'
  | [], resolved, _, _ => ⟨resolved, rfl⟩
  | key :: keys, resolved, h, hr => by
    obtain ⟨v, hv⟩ := Option.isSome_iff_exists.mp (h key mem_cons_self)
    obtain ⟨d, hd⟩ := (expansion_eq_some_iff aliasGrammar aliasOutput).mp hv
    obtain ⟨one, hone⟩ : ∃ one, resolveOne src key resolved [] = .ok (v, one) :=
      resolveOne_complete src d hd (fun _ hn => nomatch hn) hr
    obtain ⟨done, hdone⟩ := @resolveKeys_complete keys one
      (fun n hn => h n (mem_cons_of_mem _ hn)) (resolveOne_sound hr hone).1
    refine ⟨done, ?_⟩
    rw [foldlM_cons, hone]
    exact hdone

/-- A resolved table holds the expansions. -/
theorem resolveAliases_eq_ok (h : resolveAliases src = .ok resolved)
    (name : Bytes) : resolved.lookup name = aliasExpansion src name := by
  obtain ⟨hcorrect, -, hkeys⟩ := resolveKeys_sound (correct_empty src) h
  cases hname : resolved.lookup name with
  | some v => exact (hcorrect name v hname).symm
  | none =>
    have hsrc : src.lookup name = none := by
      by_contra hne
      have hkey : name ∈ src.keys := by
        rw [← AList.mem_keys, ← AList.lookup_isSome]
        exact Option.isSome_iff_ne_none.mpr hne
      exact AList.lookup_eq_none.mp hname (hkeys name hkey)
    rw [aliasExpansion, expansion_eq, hsrc]
    rfl

theorem resolveAliases_ok_iff : (∃ resolved, resolveAliases src = .ok resolved) ↔
      ∀ name ∈ src, (aliasExpansion src name).isSome := by
  constructor
  · rintro ⟨resolved, h⟩ name hname
    obtain ⟨-, -, hkeys⟩ := resolveKeys_sound (correct_empty src) h
    rw [← resolveAliases_eq_ok h, AList.lookup_isSome]
    exact hkeys name (AList.mem_keys.mp hname)
  · exact fun h => resolveKeys_complete (fun name hname => h name (AList.mem_keys.mpr hname))
      (correct_empty src)

/-! ## Substitution -/

theorem substituteTokens_eq_ok_iff {resolved : Aliases} {at_ : Bytes} :
    ∀ {tokens : List (Token UInt8)} {out : Bytes}, substituteTokens resolved at_ tokens = .ok out ↔
      expandTokens aliasOutput (fun name => resolved.lookup name) tokens = some out
  | [], out => by simp [substituteTokens, expandTokens]
  | .lit b :: tokens, out => by
    have ih := @substituteTokens_eq_ok_iff resolved at_ tokens
    rw [substituteTokens, expandTokens, Option.map_eq_some_iff]
    simp only [← ih]
    cases substituteTokens resolved at_ tokens with
    | error e => simp [Except.map]
    | ok rest => simp [Except.map]
  | .ref name :: tokens, out => by
    have ih := @substituteTokens_eq_ok_iff resolved at_ tokens
    rw [substituteTokens, expandTokens]
    cases resolved.lookup name with
    | none => simp
    | some v =>
      rw [Option.bind_some, Option.map_eq_some_iff]
      simp only [← ih]
      cases substituteTokens resolved at_ tokens with
      | error e => simp [Except.map]
      | ok rest => simp [Except.map]

/-- A text with the aliases of a table. -/
noncomputable def aliasText (src : Aliases) (text : Bytes) : Option Bytes :=
  expandText aliasGrammar aliasOutput (fun n => src.lookup n) text

/-- Substitution over a resolved table returns the expansion of the text. -/
theorem substituteAliases_eq_ok_iff (h : resolveAliases src = .ok resolved) {expr at_ out : Bytes} :
    substituteAliases expr resolved at_ = .ok out ↔ aliasText src expr = some out := by
  rw [substituteAliases, substituteTokens_eq_ok_iff, aliasText, expandText]
  have hlook : (fun name => resolved.lookup name) =
      expansion aliasGrammar aliasOutput fun n => src.lookup n :=
    funext fun name => resolveAliases_eq_ok h name
  rw [hlook]

end CodeMoniker
