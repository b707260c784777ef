import CodeMoniker.MonikerRelations
import CodeMoniker.RuleEval

/-!
# What a path pattern matches

`match_steps` backtracks over every `**`. It succeeds exactly when the segments can be cut into
consecutive parts, one for each step, that the steps cover (`matchSteps_iff_cuts`). Cuts compose
like texts, so a repeated `**` is one `**`, and the literal segments of a moniker followed by `**`
cover the segments that begin with them : the pattern and the ancestor test on the encoded bytes
select the same monikers (`matches_subtree_iff`). The pattern is also what `parse` makes of the
segments written in a row (`parse_subtree`).
-/

namespace CodeMoniker

open List ByteCodec

/-! ## Cuts -/

/-- What a step may stand for. -/
def PatternStep.Covers (step : PatternStep) (part : List Segment) : Prop :=
  match step with
  | .doubleStar => True
  | step => ∃ seg, part = [seg] ∧ matchStep step seg = true

/-- The segments are cut into one part for each step. -/
def Cuts (steps : List PatternStep) (segs : List Segment) : Prop :=
  ∃ parts, List.Forall₂ PatternStep.Covers steps parts ∧ segs = parts.flatten

variable {segs : List Segment}

@[simp] theorem cuts_nil : Cuts [] segs ↔ segs = [] := by
  constructor
  · rintro ⟨parts, hparts, rfl⟩
    cases hparts
    rfl
  · rintro rfl
    exact ⟨[], .nil, rfl⟩

theorem cuts_cons {step : PatternStep} {steps : List PatternStep} {segs : List Segment} :
    Cuts (step :: steps) segs ↔
      ∃ part rest, step.Covers part ∧ Cuts steps rest ∧ segs = part ++ rest := by
  constructor
  · rintro ⟨parts, hparts, rfl⟩
    obtain ⟨part, parts, hpart, hrest, rfl⟩ := List.forall₂_cons_left_iff.mp hparts
    exact ⟨part, parts.flatten, hpart, ⟨parts, hrest, rfl⟩, rfl⟩
  · rintro ⟨part, _, hpart, ⟨parts, hparts, rfl⟩, rfl⟩
    exact ⟨part :: parts, .cons hpart hparts, rfl⟩

theorem cuts_append {a b : List PatternStep} {segs : List Segment} :
    Cuts (a ++ b) segs ↔ ∃ u v, Cuts a u ∧ Cuts b v ∧ segs = u ++ v := by
  induction a generalizing segs with
  | nil => simp
  | cons step a ih =>
    rw [cons_append, cuts_cons]
    constructor
    · rintro ⟨part, _, hpart, hrest, rfl⟩
      obtain ⟨u, v, hu, hv, rfl⟩ := ih.mp hrest
      exact ⟨part ++ u, v, cuts_cons.mpr ⟨part, u, hpart, hu, rfl⟩, hv,
        (append_assoc part u v).symm⟩
    · rintro ⟨_, v, hu, hv, rfl⟩
      obtain ⟨part, u, hpart, hrest, rfl⟩ := cuts_cons.mp hu
      exact ⟨part, u ++ v, hpart, ih.mpr ⟨u, v, hrest, hv, rfl⟩, append_assoc part u v⟩

variable {steps : List PatternStep}

theorem cuts_doubleStar {segs : List Segment} :
    Cuts (.doubleStar :: steps) segs ↔ ∃ rest, Cuts steps rest ∧ rest <:+ segs := by
  rw [cuts_cons]
  constructor
  · rintro ⟨part, rest, -, hrest, rfl⟩
    exact ⟨rest, hrest, suffix_append part rest⟩
  · rintro ⟨rest, hrest, part, rfl⟩
    exact ⟨part, rest, True.intro, hrest, rfl⟩

theorem cuts_cons_of_ne {step : PatternStep} (hstep : step ≠ .doubleStar)
    {steps : List PatternStep} {segs : List Segment} : Cuts (step :: steps) segs ↔
      ∃ seg rest, matchStep step seg = true ∧ Cuts steps rest ∧ segs = seg :: rest := by
  have hcovers : ∀ part, step.Covers part ↔ ∃ seg, part = [seg] ∧ matchStep step seg = true := by
    intro part
    cases step with
    | doubleStar => exact absurd rfl hstep
    | literal | kindWildcard | nameWildcard | anySegment | regex => exact Iff.rfl
  rw [cuts_cons]
  simp only [hcovers]
  constructor
  · rintro ⟨_, rest, ⟨seg, rfl, hseg⟩, hrest, rfl⟩
    exact ⟨seg, rest, hseg, hrest, rfl⟩
  · rintro ⟨seg, rest, hseg, hrest, rfl⟩
    exact ⟨[seg], rest, ⟨seg, rfl, hseg⟩, hrest, rfl⟩

/-- Backtracking finds a cut if there is one. -/
theorem matchSteps_iff_cuts {segs : List Segment} :
    matchSteps steps segs = true ↔ Cuts steps segs := by
  induction steps generalizing segs with
  | nil => rw [matchSteps, List.isEmpty_iff, cuts_nil]
  | cons step steps ih =>
    by_cases hstep : step = .doubleStar
    · subst hstep
      simp only [matchSteps, any_eq_true, mem_range, ih, cuts_doubleStar]
      constructor
      · rintro ⟨k, -, hk⟩
        exact ⟨segs.drop k, hk, drop_suffix k segs⟩
      · rintro ⟨rest, hrest, part, rfl⟩
        refine ⟨part.length, ?_, by rwa [drop_left]⟩
        rw [length_append]
        omega
    · rw [cuts_cons_of_ne hstep]
      cases segs with
      | nil => simp [matchSteps]
      | cons seg segs => simp [matchSteps, ih]

/-- A `**` next to another adds nothing. -/
theorem cuts_collapse {before after : List PatternStep} {segs : List Segment} :
    Cuts (before ++ .doubleStar :: .doubleStar :: after) segs ↔
      Cuts (before ++ .doubleStar :: after) segs := by
  rw [cuts_append, cuts_append]
  refine exists_congr fun u => exists_congr fun v => and_congr_right fun _ =>
    and_congr_left fun _ => ?_
  rw [cuts_doubleStar, cuts_doubleStar]
  constructor
  · rintro ⟨rest, hrest, hsuffix⟩
    obtain ⟨rest', hrest', hsuffix'⟩ := cuts_doubleStar.mp hrest
    exact ⟨rest', hrest', hsuffix'.trans hsuffix⟩
  · rintro ⟨rest, hrest, hsuffix⟩
    exact ⟨rest, cuts_doubleStar.mpr ⟨rest, hrest, suffix_rfl⟩, hsuffix⟩

theorem matchSteps_collapse (before after : List PatternStep) (segs : List Segment) :
    matchSteps (before ++ .doubleStar :: .doubleStar :: after) segs =
      matchSteps (before ++ .doubleStar :: after) segs := by
  rw [Bool.eq_iff_iff, matchSteps_iff_cuts, matchSteps_iff_cuts, cuts_collapse]

/-! ## Subtrees -/

def literalStep (s : Segment) : PatternStep := .literal s.kind s.name

theorem matchStep_literalStep {s seg : Segment} :
    matchStep (literalStep s) seg = true ↔ seg = s := by
  cases s
  cases seg
  simp only [literalStep, matchStep, Bool.and_eq_true, decide_eq_true_eq, Segment.mk.injEq]

theorem cuts_literals {us segs : List Segment} : Cuts (us.map literalStep) segs ↔ segs = us := by
  induction us generalizing segs with
  | nil => exact cuts_nil
  | cons s us ih =>
    rw [map_cons, cuts_cons_of_ne (by simp [literalStep])]
    simp only [matchStep_literalStep, ih]
    constructor
    · rintro ⟨_, _, rfl, rfl, rfl⟩
      rfl
    · rintro rfl
      exact ⟨s, us, rfl, rfl, rfl⟩

/-- The segments of a moniker, then `**`. -/
def subtreeSteps (u : Moniker) : List PatternStep := u.segments.map literalStep ++ [.doubleStar]

theorem cuts_subtreeSteps {u : Moniker} {segs : List Segment} :
    Cuts (subtreeSteps u) segs ↔ u.segments <+: segs := by
  rw [subtreeSteps, cuts_append]
  simp only [cuts_literals, cuts_doubleStar, cuts_nil]
  constructor
  · rintro ⟨_, v, rfl, -, rfl⟩
    exact prefix_append u.segments v
  · rintro ⟨v, rfl⟩
    exact ⟨u.segments, v, rfl, ⟨[], rfl, nil_suffix⟩, rfl⟩

/-- The pattern looks at the segments only, so the projects have to agree. -/
theorem matches_subtree_iff {u m : Moniker} (hproject : u.project = m.project) (raw : String) :
    PathPattern.matches ⟨subtreeSteps u, raw⟩ m = u.isAncestorOf m := by
  rw [Bool.eq_iff_iff, PathPattern.matches, matchSteps_iff_cuts, cuts_subtreeSteps,
    isAncestorOf_iff_segments]
  exact (and_iff_right hproject).symm

/-! ## Written patterns -/

namespace PathPattern

/-- Outside of a regular expression, text without a slash is kept and looked at for its last
character. -/
theorem foldl_splitStep {text : List Char} (h : '/' ∉ text) : ∀ (out : List (List Char))
    (buf : List Char) (colon backslash : Bool), ∃ backslash',
      text.foldl splitStep ⟨out, buf, false, colon, backslash, false⟩ =
        ⟨out, buf ++ text, false, (text.getLast?.map fun c => decide (c = ':')).getD colon, backslash',
          false⟩ := by
  induction text with
  | nil =>
    intro out buf colon backslash
    exact ⟨backslash, by simp⟩
  | cons c text ih =>
    intro out buf colon backslash
    rw [mem_cons, not_or] at h
    have hstep : splitStep ⟨out, buf, false, colon, backslash, false⟩ c =
        ⟨out, buf ++ [c], false, decide (c = ':'), c = '\\' && !backslash, false⟩ := by
      simp [splitStep, Ne.symm h.1]
    obtain ⟨backslash', hrest⟩ := ih h.2 out (buf ++ [c]) (c = ':') (c = '\\' && !backslash)
    refine ⟨backslash', ?_⟩
    rw [foldl_cons, hstep, hrest, append_assoc, singleton_append]
    cases text with
    | nil => rfl
    | cons d text => simp [getLast?_cons]

/-- A text between slashes that a regular expression cannot begin behind. -/
structure PlainText (text : List Char) : Prop where
  noSlash : '/' ∉ text
  noColon : text.getLast? ≠ some ':'

theorem foldl_splitStep_slash {text : List Char} (h : PlainText text) (out : List (List Char))
    (backslash : Bool) : (text ++ ['/']).foldl splitStep ⟨out, [], false, false, backslash, false⟩ =
      ⟨out ++ [text], [], false, false, false, false⟩ := by
  obtain ⟨backslash', hrest⟩ := foldl_splitStep h.noSlash out [] false backslash
  have hcolon : (text.getLast?.map fun c => decide (c = ':')).getD false = false := by
    cases hlast : text.getLast? with
    | none => rfl
    | some c =>
      have hc : c ≠ ':' := fun hc => h.noColon (hlast.trans (congrArg some hc))
      simp [hc]
  rw [foldl_append, hrest, hcolon]
  simp [splitStep]

theorem splitOuter_plain {texts : List (List Char)} (h : ∀ text ∈ texts, PlainText text)
    {last : List Char} (hlast : '/' ∉ last) :
    splitOuter (texts.flatMap (· ++ ['/']) ++ last) = texts ++ [last] := by
  have hfold : ∀ (out : List (List Char)) (backslash : Bool), ∃ backslash',
      (texts.flatMap (· ++ ['/'])).foldl splitStep ⟨out, [], false, false, backslash, false⟩ =
        ⟨out ++ texts, [], false, false, backslash', false⟩ := by
    induction texts with
    | nil => exact fun out backslash => ⟨backslash, by simp⟩
    | cons text texts ih =>
      intro out backslash
      rw [forall_mem_cons] at h
      obtain ⟨backslash', hrest⟩ := ih h.2 (out ++ [text]) false
      refine ⟨backslash', ?_⟩
      rw [flatMap_cons, foldl_append, foldl_splitStep_slash h.1, hrest,
        append_assoc, singleton_append]
  obtain ⟨backslash', hfold⟩ := hfold [] false
  obtain ⟨backslash'', hend⟩ := foldl_splitStep hlast texts [] false backslash'
  rw [splitOuter, foldl_append]
  have hinit : ({} : SplitState) = ⟨[], [], false, false, false, false⟩ := rfl
  rw [hinit, hfold, nil_append, hend]
  rfl

/-- The text of a segment is its kind, a colon and a name that stands for itself in a pattern. -/
structure SpelledBy (s : Segment) (kind name : List Char) : Prop where
  kindBytes : s.kind = Utf8.encode kind
  nameBytes : s.name = Utf8.encode name
  kindText : kind ≠ [] ∧ kind ≠ ['*'] ∧ ':' ∉ kind ∧ '/' ∉ kind
  nameText : name ≠ [] ∧ name ≠ ['*'] ∧ '/' ∉ name
  noColon : name.getLast? ≠ some ':'

def stepText (spelling : List Char × List Char) : List Char := spelling.1 ++ ':' :: spelling.2

theorem SpelledBy.plainText {s : Segment} {kind name : List Char} (h : SpelledBy s kind name) :
    PlainText (stepText (kind, name)) := by
  obtain ⟨-, -, -, hkind⟩ := h.kindText
  obtain ⟨hne, -, hname⟩ := h.nameText
  refine ⟨by simp [stepText, hkind, hname], ?_⟩
  have hlast : (stepText (kind, name)).getLast? = name.getLast? := by
    obtain ⟨c, name, rfl⟩ := exists_cons_of_ne_nil hne
    simp [stepText, getLast?_cons]
  exact hlast ▸ h.noColon

theorem SpelledBy.parseStep_eq {s : Segment} {kind name : List Char} (h : SpelledBy s kind name)
    (regexNew : String → Option Regex) :
    parseStep regexNew (stepText (kind, name)) = some (literalStep s) := by
  obtain ⟨hkne, hkstar, hcolon, -⟩ := h.kindText
  obtain ⟨hnne, hnstar, hslash⟩ := h.nameText
  have hall : ∀ c ∈ kind, decide (c ≠ ':') = true := by
    rintro c hc
    exact decide_eq_true fun heq => hcolon (heq ▸ hc)
  have htake : (kind ++ ':' :: name).takeWhile (· ≠ ':') = kind := by
    rw [takeWhile_append_of_pos hall]
    simp
  have hdrop : (kind ++ ':' :: name).dropWhile (· ≠ ':') = ':' :: name := by
    rw [dropWhile_append_of_pos hall]
    simp
  have hstrip : stripSlashes name = none := by
    unfold stripSlashes
    split
    · simp at hslash
    · rfl
  have hmem : ':' ∈ kind ++ ':' :: name := by simp
  have hstar : ∀ stars : String, ':' ∉ stars.toList → kind ++ ':' :: name ≠ stars.toList :=
    fun stars hstars heq => hstars (heq ▸ hmem)
  rw [parseStep, stepText, if_neg (hstar "**" (by decide)), if_neg (hstar "*" (by decide)),
    if_neg (not_not.mpr hmem), htake, hdrop]
  simp only [drop_succ_cons, drop_zero, hkne, hnne, or_self, if_false, hstrip, hkstar, hnstar]
  rw [literalStep, h.kindBytes, h.nameBytes]

variable {spellings : List (List Char × List Char)}

theorem plainText_of_spelled (h : Forall₂ (fun s t => SpelledBy s t.1 t.2) segs spellings) :
    ∀ text ∈ spellings.map stepText, PlainText text := by
  induction h with
  | nil => simp
  | cons hs _ ih =>
    rw [map_cons, forall_mem_cons]
    exact ⟨hs.plainText, ih⟩

theorem mapM_parseStep (h : Forall₂ (fun s t => SpelledBy s t.1 t.2) segs spellings)
    (regexNew : String → Option Regex) : (spellings.map stepText ++ ["**".toList]).mapM
      (parseStep regexNew) = some (segs.map literalStep ++ [.doubleStar]) := by
  induction h with
  | nil => rfl
  | cons hs _ ih =>
    rw [map_cons, cons_append, mapM_cons, hs.parseStep_eq, ih]
    rfl

/-- The segments of a moniker, written one after the other, and `**`. -/
def subtreeText (spellings : List (List Char × List Char)) : String :=
  String.ofList ((spellings.map stepText).flatMap (· ++ ['/']) ++ "**".toList)

theorem parse_subtree {u : Moniker} {spellings : List (List Char × List Char)}
    (h : Forall₂ (fun s t => SpelledBy s t.1 t.2) u.segments spellings)
    (regexNew : String → Option Regex) : parse regexNew (subtreeText spellings) =
      some ⟨subtreeSteps u, subtreeText spellings⟩ := by
  have hne : (subtreeText spellings).toList ≠ [] := by simp [subtreeText]
  have hsplit : splitOuter (subtreeText spellings).toList =
      spellings.map stepText ++ ["**".toList] := by
    rw [subtreeText, String.toList_ofList]
    exact splitOuter_plain (plainText_of_spelled h) (by decide)
  rw [parse, if_neg hne, hsplit, mapM_parseStep h]
  rfl

end PathPattern

/-- A pattern matches what its steps cover in order, a repeated `**` is one, and the segments of a
moniker followed by `**` select its descendants, as `<@` does. -/
theorem pathPattern_laws : (∀ (steps : List PatternStep) (segs : List Segment),
      matchSteps steps segs = true ↔ Cuts steps segs) ∧
    (∀ (before after : List PatternStep) (segs : List Segment),
      matchSteps (before ++ .doubleStar :: .doubleStar :: after) segs =
        matchSteps (before ++ .doubleStar :: after) segs) ∧
    (∀ u : Moniker, u.isAncestorOf u = true) ∧
    (∀ (u m : Moniker) (raw : String), u.project = m.project →
      PathPattern.matches ⟨subtreeSteps u, raw⟩ m = u.isAncestorOf m ∧
      ∀ re : Option Regex, applyOp (.moniker m) .pathMatch (.pathPattern ⟨subtreeSteps u, raw⟩) re =
        applyOp (.moniker m) .descendantOf (.moniker u) re) ∧
    (∀ (u : Moniker) (spellings : List (List Char × List Char)),
      List.Forall₂ (fun s t => PathPattern.SpelledBy s t.1 t.2) u.segments spellings →
      ∀ regexNew : String → Option Regex,
        PathPattern.parse regexNew (PathPattern.subtreeText spellings) =
          some ⟨subtreeSteps u, PathPattern.subtreeText spellings⟩) := by
  refine ⟨fun _ _ => matchSteps_iff_cuts, matchSteps_collapse, isAncestorOf_refl, ?_, ?_⟩
  · intro u m raw hproject
    have hmatches := matches_subtree_iff hproject raw
    exact ⟨hmatches, fun re => congrArg NodeOutcome.ofBool hmatches⟩
  · intro u spellings h regexNew
    exact PathPattern.parse_subtree h regexNew

end CodeMoniker
