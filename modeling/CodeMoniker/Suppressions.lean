import CodeMoniker.Fragments
import CodeMoniker.LineSpans

/-!
# Suppressed violations

A directive in a comment suppresses the violations of a file, or those of its comment and of the
next definition. `apply` keeps the lines from the comment to the end of the definition as one span,
so it also suppresses what starts between the two : `apply_iff` says that this is the only
difference to suppressing what starts in the comment or in the definition.
-/

namespace CodeMoniker.Suppress

open List ByteCodec Fragments LineSpans

/-! ## Directives -/

structure Directive where
  commentStartByte : UInt32
  commentEndByte : UInt32
  fileScope : Bool
  ruleFilters : List (List Char)
  deriving DecidableEq

/-- `-file` is there, and the text between brackets. -/
abbrev Captures := Bool × Option (List Char)

/-- `(?:\[([^\]]+)\])?`. -/
def bracketed : List Char → Option (List Char)
  | '[' :: text =>
    let inner := text.takeWhile (· ≠ ']')
    if inner ≠ [] ∧ inner.length < text.length then some inner else none
  | _ => none

/-- `directive_re` at the start of a text. No character could be read in two ways. -/
def capturesAt (text : List Char) : Option Captures := do
  let text ← ["//", "#", "--"].findSome? fun mark => stripPrefix mark.toList text
  let text ← stripPrefix "code-moniker:".toList (text.dropWhile isWhitespace)
  let text ← stripPrefix "ignore".toList (text.dropWhile isWhitespace)
  match stripPrefix "-file".toList text with
  | some text => return (true, bracketed text)
  | none => return (false, bracketed text)

/-- The first match in a text. -/
def captures (text : List Char) : Option Captures := text.tails.findSome? capturesAt

def directiveFromCaptures (start stop : UInt32) (caps : Captures) : Directive where
  commentStartByte := start
  commentEndByte := stop
  fileScope := caps.1
  ruleFilters := (caps.2.map fun text =>
    ((text.splitOn ',').map trimChars).filter fun f => f ≠ []).getD []

/-- `split_inclusive('\n')`. -/
def splitInclusive : Bytes → List Bytes
  | [] => []
  | b :: rest =>
    if b = 0x0A then [b] :: splitInclusive rest
    else
      match splitInclusive rest with
      | [] => [[b]]
      | line :: lines => (b :: line) :: lines

/-- The length of a line without the characters that end it. -/
def trimmedLength (line : Bytes) : ℕ :=
  (line.reverse.dropWhile fun b => b = 0x0D || b = 0x0A).length

def textCaptures (text : Bytes) : Option Captures := (Utf8.decode? text).bind captures

/-- The loop over the lines, from the offset at which the first one starts. -/
def sourceDirectivesFrom : ℕ → List Bytes → List Directive
  | _, [] => []
  | lineStart, line :: lines =>
    let lineEnd := lineStart + trimmedLength line
    ((textCaptures line).map (directiveFromCaptures (.ofNat lineStart) (.ofNat lineEnd))).toList ++
      sourceDirectivesFrom (lineStart + line.length) lines

variable (source : Bytes)

def collectSourceDirectives : List Directive :=
  sourceDirectivesFrom 0 (splitInclusive source)

def kindComment : Bytes := byteString "comment"

/-- The directive of the text of a comment. -/
def commentDirective (d : DefRecord) : Option Directive := do
  guard (d.kind = kindComment)
  let position ← d.position
  let text ← sourceGet source position.1.toNat position.2.toNat
  let caps ← captures text.toList
  return directiveFromCaptures position.1 position.2 caps

def Directive.key (d : Directive) : UInt32 × UInt32 × Bool :=
  (d.commentStartByte, d.commentEndByte, d.fileScope)

/-- The directives of the comments that are not seen yet. -/
def commentDirectives (source : Bytes) : List (UInt32 × UInt32 × Bool) → List DefRecord →
    List Directive
  | _, [] => []
  | seen, d :: defs =>
    match commentDirective source d with
    | none => commentDirectives source seen defs
    | some directive =>
      if directive.key ∈ seen then commentDirectives source seen defs
      else directive :: commentDirectives source (directive.key :: seen) defs

def collectDirectives (graph : CodeGraph) (source : Bytes) : List Directive :=
  let out := collectSourceDirectives source
  out ++ commentDirectives source (out.map (·.key)) graph.defs

/-! ## The next definition -/

def startByte (d : DefRecord) : ℕ := (d.position.map (·.1.toNat)).getD 0xFFFFFFFF

/-- One turn of the loop of `next_def_after`. -/
def nextDefStep (afterByte : ℕ) (best : Option DefRecord) (d : DefRecord) :
    Option DefRecord :=
  if d.kind = kindComment then best
  else
    match d.position with
    | none => best
    | some (start, _) =>
      if start.toNat < afterByte then best
      else
        match best with
        | none => some d
        | some b => if start.toNat < startByte b then some d else best

def nextDefAfter (graph : CodeGraph) (afterByte : ℕ) : Option DefRecord :=
  graph.defs.foldl (nextDefStep afterByte) none

def spanLines (span : Position) : ℕ × ℕ :=
  lineRange source span.1.toNat span.2.toNat

def Directive.lines (dir : Directive) : ℕ × ℕ :=
  spanLines source (dir.commentStartByte, dir.commentEndByte)

def targetLinesFor (graph : CodeGraph) (source : Bytes) (dir : Directive) : Option (ℕ × ℕ) :=
  let directiveLines := dir.lines source
  let targetLines := (nextDefAfter graph dir.commentEndByte.toNat).bind fun t =>
    t.position.map (spanLines source)
  some (match targetLines with
    | some t => hull directiveLines t
    | none => directiveLines)

/-! ## Suppressing -/

def matchesId (dir : Directive) (ruleId : List Char) : Bool :=
  dir.ruleFilters.isEmpty ||
    dir.ruleFilters.any fun f => ruleId = f || ('.' :: f).isSuffixOf ruleId

/-- A directive with the lines it covers suppresses the violation. -/
def suppressedOn (v : Violation) (line : Directive × Option (ℕ × ℕ)) : Bool :=
  matchesId line.1 v.ruleId.toList &&
    line.2.any fun (s, e) => s ≤ v.lines.1 && v.lines.1 ≤ e

def apply (graph : CodeGraph) (source : Bytes) (violations : List Violation) : List Violation :=
  let directives := collectDirectives graph source
  if directives.isEmpty then violations
  else
    let fileScope := directives.filter (·.fileScope)
    let lineScope := (directives.filter fun d => !d.fileScope).map fun d =>
      (d, targetLinesFor graph source d)
    violations.filter fun v =>
      !fileScope.any (fun d => matchesId d v.ruleId.toList) && !lineScope.any (suppressedOn v)

/-! ## What a directive is for -/

/-- A definition that is no comment and starts at or after the offset. -/
def Follows (afterByte : ℕ) (d : DefRecord) : Prop :=
  d.kind ≠ kindComment ∧ d.position.isSome ∧ afterByte ≤ startByte d

instance (afterByte : ℕ) (d : DefRecord) : Decidable (Follows afterByte d) :=
  inferInstanceAs (Decidable (_ ∧ _ ∧ _))

/-- The definitions that follow the offset, in the order of the graph. -/
def following (graph : CodeGraph) (afterByte : ℕ) : List DefRecord :=
  graph.defs.filter (Follows afterByte)

/-- The first definition that follows the offset with the least start. -/
structure IsNextDef (graph : CodeGraph) (afterByte : ℕ) (d : DefRecord) : Prop where
  mem : d ∈ following graph afterByte
  le : ∀ c ∈ following graph afterByte, startByte d ≤ startByte c
  first : ∀ c ∈ following graph afterByte, startByte c ≤ startByte d →
    (following graph afterByte).idxOf d ≤ (following graph afterByte).idxOf c

def startsOn (v : Violation) (lines : ℕ × ℕ) : Prop :=
  lines.1 ≤ v.lines.1 ∧ v.lines.1 ≤ lines.2

/-- A directive of the file with the rule of the violation is about the whole file, or the
violation starts on its lines or on those of the next definition. -/
def LocallySuppressed (graph : CodeGraph) (source : Bytes) (v : Violation) : Prop :=
  ∃ dir ∈ collectDirectives graph source, matchesId dir v.ruleId.toList = true ∧
    (dir.fileScope = true ∨ startsOn v (dir.lines source) ∨
      ∃ d, IsNextDef graph dir.commentEndByte.toNat d ∧
        ∃ span ∈ d.position, startsOn v (spanLines source span))

/-- A line directive with the rule of the violation has it between its comment and the next
definition. -/
def InGap (graph : CodeGraph) (source : Bytes) (v : Violation) : Prop :=
  ∃ dir ∈ collectDirectives graph source, matchesId dir v.ruleId.toList = true ∧
    dir.fileScope = false ∧ ∃ d, IsNextDef graph dir.commentEndByte.toNat d ∧
      ∃ span ∈ d.position, Between (dir.lines source) (spanLines source span) v.lines.1

/-! ## The next definition is the first of the nearest -/

theorem nextDefStep_eq (afterByte : ℕ) (best : Option DefRecord) (d : DefRecord) :
    nextDefStep afterByte best d = if Follows afterByte d then
      List.argAux (fun b c => startByte b < startByte c) best d else best := by
  have hstart : ∀ span, d.position = some span → startByte d = span.1.toNat := by
    intro span hspan
    rw [startByte, hspan]
    rfl
  by_cases hfollows : Follows afterByte d
  · rw [if_pos hfollows]
    obtain ⟨hkind, hposition, hle⟩ := hfollows
    obtain ⟨span, hspan⟩ := Option.isSome_iff_exists.mp hposition
    rw [hstart span hspan] at hle
    rw [nextDefStep, if_neg hkind, hspan]
    dsimp only
    rw [if_neg (Nat.not_lt.mpr hle), ← hstart span hspan]
    cases best <;> rfl
  · rw [if_neg hfollows]
    unfold nextDefStep
    split_ifs with hkind
    · rfl
    cases hspan : d.position with
    | none => rfl
    | some span =>
      have hlt : span.1.toNat < afterByte := by
        by_contra hle
        refine hfollows ⟨hkind, by rw [hspan]; rfl, ?_⟩
        rw [hstart span hspan]
        exact Nat.le_of_not_lt hle
      exact if_pos hlt

theorem nextDefAfter_eq_argmin (graph : CodeGraph) (afterByte : ℕ) :
    nextDefAfter graph afterByte = (following graph afterByte).argmin startByte := by
  have hstep : nextDefStep afterByte = fun best d =>
      if decide (Follows afterByte d) = true then
        List.argAux (fun b c => startByte b < startByte c) best d else best := by
    funext best d
    rw [nextDefStep_eq]
    simp
  rw [nextDefAfter, hstep, ← foldl_filter]
  rfl

variable {graph : CodeGraph}

theorem nextDefAfter_eq_some_iff {afterByte : ℕ} {d : DefRecord} :
    nextDefAfter graph afterByte = some d ↔ IsNextDef graph afterByte d := by
  rw [nextDefAfter_eq_argmin]
  have hargmin := @mem_argmin_iff _ _ _ startByte (following graph afterByte) d _
  rw [Option.mem_def] at hargmin
  rw [hargmin]
  exact ⟨fun ⟨hmem, hle, hfirst⟩ => ⟨hmem, hle, hfirst⟩, fun h => ⟨h.mem, h.le, h.first⟩⟩

/-! ## What is suppressed -/

/-- A directive of the file with the rule of the violation is about the whole file, or the
violation starts in the span from its comment to the next definition. -/
def SuppressedInHull (graph : CodeGraph) (source : Bytes) (v : Violation) : Prop :=
  ∃ dir ∈ collectDirectives graph source, matchesId dir v.ruleId.toList = true ∧
    (dir.fileScope = true ∨ ∃ lines ∈ targetLinesFor graph source dir, startsOn v lines)

theorem lineRange_ordered (start stop : ℕ) :
    (lineRange source start stop).1 ≤ (lineRange source start stop).2 := by
  unfold lineRange
  dsimp only
  refine Nat.add_le_add_left ?_ 1
  split_ifs with h
  · have hle : min start source.length ≤
        max (min stop source.length) (min start source.length) - 1 := by
      omega
    exact (take_sublist_take_left hle).count_le _
  · exact le_rfl

/-- The span of a directive holds its lines, those of the next definition and those between. -/
theorem startsOn_targetLines {source : Bytes} {dir : Directive}
    {v : Violation} : (∃ lines ∈ targetLinesFor graph source dir, startsOn v lines) ↔
      startsOn v (dir.lines source) ∨ ∃ d, IsNextDef graph dir.commentEndByte.toNat d ∧
        ∃ span ∈ d.position, startsOn v (spanLines source span) ∨
          Between (dir.lines source) (spanLines source span) v.lines.1 := by
  unfold targetLinesFor
  simp only [Option.mem_def, Option.some.injEq, exists_eq_left']
  cases hnext : nextDefAfter graph dir.commentEndByte.toNat with
  | none =>
    have hno : ¬∃ d, IsNextDef graph dir.commentEndByte.toNat d ∧ ∃ span, d.position = some span ∧
        (startsOn v (spanLines source span) ∨
          Between (dir.lines source) (spanLines source span) v.lines.1) := by
      rintro ⟨d, hd, -⟩
      rw [nextDefAfter_eq_some_iff.mpr hd] at hnext
      cases hnext
    exact (or_iff_left hno).symm
  | some d =>
    have hd := nextDefAfter_eq_some_iff.mp hnext
    have hfollows : Follows dir.commentEndByte.toNat d := by
      simpa using (mem_filter.mp hd.mem).2
    obtain ⟨span, hspan⟩ := Option.isSome_iff_exists.mp hfollows.2.1
    rw [Option.bind_some, hspan, Option.map_some]
    refine (mem_hull_iff (lineRange_ordered _ _ _) (lineRange_ordered _ _ _)).trans ?_
    refine or_congr_right ⟨fun h => ⟨d, hd, span, hspan, h⟩, ?_⟩
    rintro ⟨d', hd', span', hspan', h⟩
    have hsame : d = d' := by
      have hnext' := nextDefAfter_eq_some_iff.mpr hd'
      rw [hnext] at hnext'
      exact Option.some.inj hnext'
    subst hsame
    obtain rfl := Option.some.inj (hspan.symm.trans hspan')
    exact h

theorem suppressedInHull_iff {source : Bytes} {v : Violation} : SuppressedInHull graph source v ↔
      LocallySuppressed graph source v ∨ InGap graph source v := by
  constructor
  · rintro ⟨dir, hdir, hid, hfile | hlines⟩
    · exact .inl ⟨dir, hdir, hid, .inl hfile⟩
    · rcases startsOn_targetLines.mp hlines with hcomment | ⟨d, hd, span, hspan, hon | hgap⟩
      · exact .inl ⟨dir, hdir, hid, .inr (.inl hcomment)⟩
      · exact .inl ⟨dir, hdir, hid, .inr (.inr ⟨d, hd, span, hspan, hon⟩)⟩
      · cases hfile : dir.fileScope with
        | true => exact .inl ⟨dir, hdir, hid, .inl hfile⟩
        | false => exact .inr ⟨dir, hdir, hid, hfile, d, hd, span, hspan, hgap⟩
  · rintro (⟨dir, hdir, hid, hfile | hcomment | ⟨d, hd, span, hspan, hon⟩⟩ |
      ⟨dir, hdir, hid, -, d, hd, span, hspan, hgap⟩)
    · exact ⟨dir, hdir, hid, .inl hfile⟩
    · exact ⟨dir, hdir, hid, .inr (startsOn_targetLines.mpr (.inl hcomment))⟩
    · exact ⟨dir, hdir, hid, .inr (startsOn_targetLines.mpr (.inr ⟨d, hd, span, hspan, .inl hon⟩))⟩
    · exact ⟨dir, hdir, hid, .inr (startsOn_targetLines.mpr (.inr ⟨d, hd, span, hspan, .inr hgap⟩))⟩

theorem suppressedOn_iff {v : Violation} {dir : Directive} {target : Option (ℕ × ℕ)} :
    suppressedOn v (dir, target) = true ↔
      matchesId dir v.ruleId.toList = true ∧ ∃ lines ∈ target, startsOn v lines := by
  rw [suppressedOn, Bool.and_eq_true, Option.any_eq_true]
  simp only [Bool.and_eq_true, decide_eq_true_eq, startsOn, Option.mem_def]

/-- The two lists of directives suppress what one of the directives does. -/
theorem any_directives_iff {source : Bytes} {v : Violation} :
    ((collectDirectives graph source).filter (·.fileScope)).any
          (fun d => matchesId d v.ruleId.toList) = true ∨
        (((collectDirectives graph source).filter fun d => !d.fileScope).map fun d =>
          (d, targetLinesFor graph source d)).any (suppressedOn v) = true ↔
      SuppressedInHull graph source v := by
  rw [any_map, any_filter, any_filter, any_eq_true, any_eq_true]
  simp only [Bool.and_eq_true, Bool.not_eq_true', Function.comp_apply, suppressedOn_iff]
  constructor
  · rintro (⟨dir, hdir, hfile, hid⟩ | ⟨dir, hdir, -, hid, hlines⟩)
    · exact ⟨dir, hdir, hid, .inl hfile⟩
    · exact ⟨dir, hdir, hid, .inr hlines⟩
  · rintro ⟨dir, hdir, hid, hsuppressed⟩
    cases hfile : dir.fileScope with
    | true => exact .inl ⟨dir, hdir, hfile, hid⟩
    | false => exact .inr ⟨dir, hdir, hfile, hid, hsuppressed.resolve_left (by simp [hfile])⟩

open Classical in
/-- `apply` keeps what is not suppressed, in order. -/
theorem apply_eq_filter (graph : CodeGraph) (source : Bytes) (violations : List Violation) :
    apply graph source violations =
      violations.filter fun v => ¬SuppressedInHull graph source v := by
  unfold apply
  dsimp only
  split_ifs with h
  · refine (filter_eq_self.mpr fun v _ => ?_).symm
    rw [decide_eq_true_eq]
    rintro ⟨dir, hdir, -⟩
    rw [List.isEmpty_iff.mp h] at hdir
    cases hdir
  · refine filter_congr fun v _ => ?_
    rw [Bool.eq_iff_iff, decide_eq_true_eq, ← any_directives_iff, ← Bool.not_or, Bool.not_eq_true',
      ← Bool.not_eq_true, Bool.or_eq_true]

/-! ## Local suppression -/

theorem filter_eq_filter_iff {α : Type} {p q : α → Bool} {l : List α} :
    l.filter p = l.filter q ↔ ∀ a ∈ l, (p a = true ↔ q a = true) := by
  constructor
  · intro h a ha
    have hmem : a ∈ l.filter p ↔ a ∈ l.filter q := by rw [h]
    simpa [ha] using hmem
  · intro h
    exact filter_congr fun a ha => Bool.eq_iff_iff.mpr (h a ha)

open Classical in
/-- A call keeps exactly what no directive suppresses locally, in order and once and for all, if
everything that starts in the gap of a directive is suppressed otherwise. -/
theorem apply_iff (graph : CodeGraph) (source : Bytes) (violations : List Violation) :
    (apply graph source violations =
        violations.filter (fun v => ¬LocallySuppressed graph source v) ∧
      apply graph source (apply graph source violations) = apply graph source violations) ↔
    ∀ v ∈ violations, InGap graph source v → LocallySuppressed graph source v := by
  have htwice : apply graph source (apply graph source violations) =
      apply graph source violations := by
    rw [apply_eq_filter graph source violations, apply_eq_filter, filter_filter]
    exact filter_congr fun v _ => Bool.and_self _
  rw [and_iff_left htwice, apply_eq_filter, filter_eq_filter_iff]
  refine forall_congr' fun v => forall_congr' fun _ => ?_
  rw [decide_eq_true_eq, decide_eq_true_eq, not_iff_not, suppressedInHull_iff]
  exact or_iff_left_iff_imp

/-! ## A comment between the two -/

def spacedSource : Bytes := byteString "// code-moniker: ignore\n\n/* long */\nclass A {}\n"

def spacedDef (kind name : String) (h : ∀ s ∈ [(kind, name)].map segmentOf, s.Admitted)
    (span : Position) : DefRecord :=
  CodeGraph.addedDef (dotMoniker [(kind, name)] h) (byteString kind) 0 (some span) {}

def spacedClass : DefRecord := spacedDef "class" "A" (by decide) (36, 46)

/-- The comment with the directive, another comment and a class, on the lines 1, 3 and 4. -/
def spacedGraph : CodeGraph :=
  .fromRecords [spacedDef "comment" "0" (by decide) (0, 23),
    spacedDef "comment" "25" (by decide) (25, 35), spacedClass] []

def longComment : Violation where
  ruleId := "ts.comment.max-lines"
  severity := .error
  moniker := "code+moniker://./comment:25"
  srcset := none
  kind := "comment"
  lines := (3, 3)
  message := "too long"
  explanation := none

/-- The violation of a comment between a directive and the next definition is removed. -/
theorem apply_longComment : apply spacedGraph spacedSource [longComment] = [] ∧
    ¬LocallySuppressed spacedGraph spacedSource longComment := by
  refine ⟨by decide, ?_⟩
  rintro ⟨dir, hdir, -, hlocal⟩
  have hdirectives : collectDirectives spacedGraph spacedSource = [⟨0, 23, false, []⟩] := by
    decide
  rw [hdirectives, mem_singleton] at hdir
  subst hdir
  have hnext : nextDefAfter spacedGraph 23 = some spacedClass := by decide
  rcases hlocal with hfile | hcomment | ⟨d, hd, span, hspan, hon⟩
  · cases hfile
  · have hlines : Directive.lines spacedSource ⟨0, 23, false, []⟩ = (1, 1) := by decide
    rw [hlines] at hcomment
    exact absurd hcomment.2 (by decide)
  · have hclass : spacedClass = d := by
      have hnext' := nextDefAfter_eq_some_iff.mpr hd
      exact Option.some.inj (hnext.symm.trans hnext')
    subst hclass
    obtain rfl : (36, 46) = span := Option.some.inj hspan
    have hlines : spanLines spacedSource (36, 46) = (4, 4) := by decide
    rw [hlines] at hon
    exact absurd hon.1 (by decide)

end CodeMoniker.Suppress
