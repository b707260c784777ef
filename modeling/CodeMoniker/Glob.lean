import CodeMoniker.Fragments
import CodeMoniker.PathPatterns

/-!
# Path filters

A path filter is compiled from patterns. One without wildcards becomes two regular expressions,
for the path itself and for what lies below it, and one with wildcards is translated piece by
piece (`globToRegex`). The regular expressions are those of a crate, and its documented behaviour
on such patterns is a hypothesis (`RegexCrate.Documented`).

A pattern is normalised in two places. The filter leaves a `/` at its end and the tree of files
does not (`normalizePathPattern`, `normalizeTreePath`), so that a filter with a `/` at the end
selects no file (`matches_plain`).
-/

namespace CodeMoniker

open List ByteCodec PathPatterns
open Fragments (trimChars)

/-! ## Regular expressions -/

/-- What is used of the crate for regular expressions. -/
structure RegexCrate where
  Regex : Type
  new : List Char → Except (List Char) Regex
  isMatch : Regex → List Char → Bool
  escape : List Char → List Char

def Piece.text (crate : RegexCrate) : Piece → List Char
  | .literal c => crate.escape [c]
  | .nameChar => "[^/]".toList
  | .nameText => "[^/]*".toList
  | .anyText => ".*".toList
  | .folders => "(?:.*/)?".toList

@[simp] theorem Piece.text_literal (crate : RegexCrate) (c : Char) :
    Piece.text crate (.literal c) = crate.escape [c] := rfl

@[simp] theorem Piece.text_anyText (crate : RegexCrate) :
    Piece.text crate .anyText = ".*".toList := rfl

def anchored (body : List Char) : List Char := '^' :: body ++ ['$']

/-- The text of an expression for the whole of a path. -/
def regexText (crate : RegexCrate) (pieces : List Piece) : List Char :=
  anchored (pieces.flatMap (Piece.text crate))

/-- The documented behaviour. Text is escaped by its characters, `/` has no other meaning, and a
compiled expression matches the texts of its language. -/
structure RegexCrate.Documented (crate : RegexCrate) : Prop where
  escape_eq : ∀ text, crate.escape text = text.flatMap fun c => crate.escape [c]
  escape_slash : crate.escape ['/'] = ['/']
  isMatch_iff : ∀ pieces regex, crate.new (regexText crate pieces) = .ok regex →
    ∀ text, crate.isMatch regex text = true ↔ text ∈ language pieces

/-! ## Normalised patterns -/

def forwardSlashes (text : List Char) : List Char := text.map fun c => if c = '\\' then '/' else c

/-- `trim_start_matches("./")`. -/
def trimDotSlashes : List Char → List Char
  | '.' :: '/' :: rest => trimDotSlashes rest
  | text => text

def isWild (pattern : List Char) : Bool := pattern.any fun c => c = '*' || c = '?'

def normalizePathPattern (pattern : List Char) : Except (Stop (List Char)) (List Char) :=
  if trimChars pattern = [] then .error (.error "path glob must not be empty".toList)
  else .ok ((trimDotSlashes (forwardSlashes (trimChars pattern))).dropWhile (· = '/'))

def normalizeTreePath (path : List Char) : List Char :=
  ((trimDotSlashes (forwardSlashes (trimChars path))).dropWhile (· = '/')).rdropWhile (· = '/')

/-! ## Compiled filters -/

/-- The pieces that `glob_to_regex` writes, one after the other. -/
def globPieces : List Char → List Piece
  | [] => []
  | '*' :: rest =>
    match rest with
    | '*' :: rest =>
      match rest with
      | '/' :: rest => .folders :: globPieces rest
      | rest => .anyText :: globPieces rest
    | rest => .nameText :: globPieces rest
  | '?' :: rest => .nameChar :: globPieces rest
  | other :: rest => .literal other :: globPieces rest

section Compile

variable (crate : RegexCrate) (pattern : List Char)

def globToRegex : List Char := regexText crate (globPieces pattern)

/-- A pattern that does not compile is a panic. -/
def compileGlob : Except (Stop (List Char)) crate.Regex :=
  match crate.new (globToRegex crate pattern) with
  | .ok regex => .ok regex
  | .error _ => .error .panic

def compileRegex (text : List Char) : Except (Stop (List Char)) crate.Regex :=
  match crate.new text with
  | .ok regex => .ok regex
  | .error e => .error (.error e)

def compilePathPattern : Except (Stop (List Char)) (List crate.Regex) :=
  if isWild pattern then do return [← compileGlob crate pattern]
  else do
    let escaped := crate.escape pattern
    let itself ← compileRegex crate (anchored escaped)
    let below ← compileRegex crate (anchored (escaped ++ "/.*".toList))
    return [itself, below]

structure FilePathFilter where
  patterns : List crate.Regex

def FilePathFilter.compile (patterns : List (List Char)) :
    Except (Stop (List Char)) (FilePathFilter crate) := do
  let compiled ← patterns.mapM fun pattern => do
    compilePathPattern crate (← normalizePathPattern pattern)
  return ⟨compiled.flatten⟩

variable {crate}

def FilePathFilter.matches (filter : FilePathFilter crate) (relPath : List Char) : Bool :=
  filter.patterns.isEmpty ||
    filter.patterns.any fun pattern => crate.isMatch pattern (forwardSlashes relPath)

end Compile

/-! ## What a pattern selects -/

/-- The path itself and what lies below it. -/
def Selects (scope path : List Char) : Prop := path = scope ∨ scope ++ ['/'] <+: path

/-- Without every `./` and `/` at the start. -/
def stripLeading : List Char → List Char
  | '.' :: '/' :: rest => stripLeading rest
  | '/' :: rest => stripLeading rest
  | text => text

/-- The folder or file that a pattern without wildcards names. -/
def namedPath (pattern : List Char) : List Char :=
  (stripLeading (forwardSlashes (trimChars pattern))).rdropWhile (· = '/')

/-- A relative path, without a line break. -/
structure RelativePath (path : List Char) : Prop where
  line : '\n' ∉ path
  dotSlash : ¬['.', '/'] <+: forwardSlashes path
  slash : ¬['/'] <+: forwardSlashes path

/-! ## Normal forms -/

variable (text : List Char)

theorem stripLeading_trimDotSlashes : stripLeading (trimDotSlashes text) = stripLeading text := by
  fun_induction trimDotSlashes text with
  | case1 rest ih => rw [ih, stripLeading]
  | case2 text h => rfl

theorem stripLeading_dropWhile : stripLeading (text.dropWhile (· = '/')) = stripLeading text := by
  induction text with
  | nil => rfl
  | cons c text ih =>
    by_cases hc : c = '/'
    · subst hc
      rw [dropWhile_cons_of_pos (by simp), ih, stripLeading]
    · rw [dropWhile_cons_of_neg (by simpa using hc)]

theorem stripLeading_suffix : stripLeading text <:+ text := by
  fun_induction stripLeading text with
  | case1 rest ih => exact ih.trans ((suffix_cons _ _).trans (suffix_cons _ _))
  | case2 rest ih => exact ih.trans (suffix_cons _ _)
  | case3 => exact suffix_rfl

theorem stripLeading_leading :
    ¬['.', '/'] <+: stripLeading text ∧ ¬['/'] <+: stripLeading text := by
  fun_induction stripLeading text with
  | case1 rest ih => exact ih
  | case2 rest ih => exact ih
  | case3 text hdot hslash =>
    constructor
    · rintro ⟨rest, rfl⟩
      exact hdot rest rfl
    · rintro ⟨rest, rfl⟩
      exact hslash rest rfl

variable {text : List Char}

/-- A text that starts with neither is left alone. -/
theorem stripLeading_eq (hdot : ¬['.', '/'] <+: text) (hslash : ¬['/'] <+: text) :
    stripLeading text = text := by
  fun_cases stripLeading text with
  | case1 rest => exact absurd ⟨rest, rfl⟩ hdot
  | case2 rest => exact absurd ⟨rest, rfl⟩ hslash
  | case3 => rfl

section Normalized

variable {pattern normalized : List Char}

section

variable (h : normalizePathPattern pattern = .ok normalized)

include h

theorem normalizePathPattern_eq : normalized =
    (trimDotSlashes (forwardSlashes (trimChars pattern))).dropWhile (· = '/') := by
  unfold normalizePathPattern at h
  split_ifs at h
  exact (Except.ok.inj h).symm

theorem namedPath_eq : namedPath pattern = (stripLeading normalized).rdropWhile (· = '/') := by
  rw [normalizePathPattern_eq h, stripLeading_dropWhile, stripLeading_trimDotSlashes]
  rfl

theorem not_slash_of_normalized : ¬['/'] <+: normalized := by
  rintro ⟨rest, rfl⟩
  have hhead := head?_dropWhile_not (fun c => decide (c = '/'))
    (trimDotSlashes (forwardSlashes (trimChars pattern)))
  rw [← normalizePathPattern_eq h] at hhead
  exact absurd hhead (by simp)

/-- The filter keeps the name of a path exactly when neither a `./` nor a `/` is left. -/
theorem normalized_eq_namedPath_iff : normalized = namedPath pattern ↔
      ¬['.', '/'] <+: normalized ∧ normalized.getLast? ≠ some '/' := by
  rw [namedPath_eq h]
  constructor
  · intro heq
    have hstrip : stripLeading normalized = normalized := by
      refine (stripLeading_suffix normalized).eq_of_length_le ?_
      have hlength := (List.rdropWhile_prefix (· = '/') (stripLeading normalized)).length_le
      rw [← heq] at hlength
      exact hlength
    refine ⟨hstrip ▸ (stripLeading_leading normalized).1, fun hlast => ?_⟩
    rw [hstrip] at heq
    have hne : normalized ≠ [] := by
      rintro rfl
      exact nomatch hlast
    have hend := rdropWhile_last_not (fun c => decide (c = '/')) normalized (heq ▸ hne)
    simp only [← heq] at hend
    rw [getLast?_eq_getLast_of_ne_nil hne] at hlast
    simp [Option.some.inj hlast] at hend
  · rintro ⟨hdot, hlast⟩
    rw [stripLeading_eq hdot (not_slash_of_normalized h), eq_comm, rdropWhile_eq_self_iff]
    intro hne hend
    rw [getLast?_eq_getLast_of_ne_nil hne] at hlast
    exact hlast (congrArg some (by simpa using hend))

end

theorem mem_trimChars {c : Char} (h : c ∈ trimChars text) : c ∈ text := by
  rw [trimChars, mem_reverse] at h
  exact (dropWhile_suffix _).mem (mem_reverse.mp ((dropWhile_suffix _).mem h))

theorem mem_namedPath {c : Char} (h : c ∈ namedPath pattern) : c ∈ forwardSlashes pattern := by
  have hstrip := (List.rdropWhile_prefix _ _).mem h
  obtain ⟨d, hd, rfl⟩ := mem_map.mp ((stripLeading_suffix _).mem hstrip)
  exact mem_map_of_mem (mem_trimChars hd)

theorem forwardSlashes_namedPath : forwardSlashes (namedPath pattern) = namedPath pattern := by
  refine (map_congr_left fun c hc => if_neg ?_).trans (map_id _)
  rintro rfl
  obtain ⟨d, -, hd⟩ := mem_map.mp (mem_namedPath hc)
  split_ifs at hd with hback
  · exact absurd hd (by decide)
  · exact hback hd

theorem notMem_forwardSlashes {path : List Char} (h : '\n' ∉ path) : '\n' ∉ forwardSlashes path := by
  intro hmem
  obtain ⟨c, hc, heq⟩ := mem_map.mp hmem
  split_ifs at heq with hback
  · exact absurd heq (by decide)
  · exact h (heq ▸ hc)

theorem relativePath_namedPath (hline : '\n' ∉ pattern) : RelativePath (namedPath pattern) := by
  have hprefix := List.rdropWhile_prefix (fun c => decide (c = '/'))
    (stripLeading (forwardSlashes (trimChars pattern)))
  obtain ⟨hdot, hslash⟩ := stripLeading_leading (forwardSlashes (trimChars pattern))
  refine ⟨fun hmem => notMem_forwardSlashes hline (mem_namedPath hmem), ?_, ?_⟩
  · rw [forwardSlashes_namedPath]
    exact fun h => hdot (h.trans hprefix)
  · rw [forwardSlashes_namedPath]
    exact fun h => hslash (h.trans hprefix)

/-- Two scopes that select the same relative paths are the same. -/
theorem selects_iff_namedPath (h : normalizePathPattern pattern = .ok normalized)
    (hline : '\n' ∉ pattern) :
    (∀ path, RelativePath path → (Selects normalized (forwardSlashes path) ↔
      Selects (namedPath pattern) (forwardSlashes path))) ↔ normalized = namedPath pattern := by
  refine ⟨fun hall => ?_, fun heq path _ => by rw [heq]⟩
  have hnamed := relativePath_namedPath hline
  have hself := (hall _ hnamed).mpr (Or.inl forwardSlashes_namedPath)
  rw [forwardSlashes_namedPath] at hself
  refine (hself.resolve_right fun hbelow => ?_).symm
  have hlength := hbelow.length_le
  have hprefix := (List.rdropWhile_prefix (· = '/') (stripLeading normalized)).length_le
  have hsuffix := (stripLeading_suffix normalized).length_le
  rw [namedPath_eq h, length_append, length_singleton] at hlength
  omega

theorem any_dropWhile {p q : Char → Bool} (h : ∀ c, q c = true → p c = false) (text : List Char) :
    (text.dropWhile q).any p = text.any p := by
  induction text with
  | nil => rfl
  | cons c text ih =>
    by_cases hc : q c = true
    · rw [dropWhile_cons_of_pos hc, ih, any_cons, h c hc, Bool.false_or]
    · rw [dropWhile_cons_of_neg hc]

theorem isWild_trimDotSlashes (text : List Char) : isWild (trimDotSlashes text) = isWild text := by
  fun_induction trimDotSlashes text with
  | case1 rest ih =>
    rw [ih]
    rfl
  | case2 => rfl

theorem isWild_forwardSlashes (text : List Char) : isWild (forwardSlashes text) = isWild text := by
  rw [isWild, forwardSlashes, any_map]
  refine congrArg (List.any text) (funext fun c => ?_)
  simp only [Function.comp_apply]
  split_ifs with hback
  · rw [hback]
    rfl
  · rfl

/-- A wildcard is not lost. -/
theorem isWild_normalized (h : normalizePathPattern pattern = .ok normalized) :
    isWild normalized = isWild pattern := by
  have hslash : ∀ c : Char, decide (c = '/') = true →
      (decide (c = '*') || decide (c = '?')) = false := by
    intro c hc
    rw [of_decide_eq_true hc]
    rfl
  have hblank : ∀ c : Char, Fragments.isWhitespace c = true →
      (decide (c = '*') || decide (c = '?')) = false := by
    intro c hc
    by_contra hwild
    rw [Bool.not_eq_false, Bool.or_eq_true, decide_eq_true_eq, decide_eq_true_eq] at hwild
    rcases hwild with rfl | rfl <;> exact absurd hc (by decide)
  rw [normalizePathPattern_eq h, isWild, any_dropWhile hslash, ← isWild, isWild_trimDotSlashes,
    isWild_forwardSlashes, isWild, trimChars, any_reverse, any_dropWhile hblank,
    any_reverse, any_dropWhile hblank]
  rfl

end Normalized

/-! ## Compiled filters match what is selected -/

section Compiled

variable {crate : RegexCrate} {pattern normalized path : List Char} {filter : FilePathFilter crate}

theorem compile_singleton (h : FilePathFilter.compile crate [pattern] = .ok filter) :
    ∃ normalized regexes, normalizePathPattern pattern = .ok normalized ∧
      compilePathPattern crate normalized = .ok regexes ∧ filter = ⟨regexes⟩ := by
  simp only [FilePathFilter.compile, mapM_cons, mapM_nil, bind_eq_ok, pure_eq_ok,
    Except.ok.injEq] at h
  obtain ⟨compiled, ⟨regexes, ⟨normalized, hnormalized, hregexes⟩, rest, rfl, rfl⟩, rfl⟩ := h
  exact ⟨normalized, regexes, hnormalized, hregexes, by simp⟩

theorem compileRegex_eq_ok {regex : crate.Regex} :
    compileRegex crate text = .ok regex ↔ crate.new text = .ok regex := by
  unfold compileRegex
  cases crate.new text <;> simp

theorem compileGlob_eq_ok {regex : crate.Regex} :
    compileGlob crate pattern = .ok regex ↔ crate.new (globToRegex crate pattern) = .ok regex := by
  unfold compileGlob
  cases crate.new (globToRegex crate pattern) <;> simp

/-- A path in the language of a text and anything below it. -/
theorem mem_language_below : path ∈ language (text.map .literal ++ [.literal '/', .anyText]) ↔
      ∃ rest, '\n' ∉ rest ∧ path = text ++ '/' :: rest := by
  rw [language_append, Language.mem_mul]
  simp only [mem_language_literals, language_cons, language_nil, mul_one, Language.mem_mul]
  constructor
  · rintro ⟨u, rfl, v, ⟨slash, rfl, rest, hrest, rfl⟩, rfl⟩
    exact ⟨rest, hrest, rfl⟩
  · rintro ⟨rest, hrest, rfl⟩
    exact ⟨text, rfl, _, ⟨['/'], rfl, rest, hrest, rfl⟩, rfl⟩

variable (hcrate : crate.Documented)

include hcrate

theorem anchored_escape (text : List Char) :
    anchored (crate.escape text) = regexText crate (text.map .literal) := by
  rw [regexText, flatMap_map, hcrate.escape_eq]
  rfl

theorem anchored_escape_below (text : List Char) : anchored (crate.escape text ++ "/.*".toList) =
      regexText crate (text.map .literal ++ [.literal '/', .anyText]) := by
  have hbelow : [.literal '/', .anyText].flatMap (Piece.text crate) = "/.*".toList := by
    rw [flatMap_cons, flatMap_cons, flatMap_nil, Piece.text_literal,
      Piece.text_anyText, hcrate.escape_slash]
    rfl
  rw [regexText, flatMap_append, flatMap_map, hcrate.escape_eq, hbelow]
  rfl

variable (hcompile : FilePathFilter.compile crate [pattern] = .ok filter)
  (hnormalized : normalizePathPattern pattern = .ok normalized) (hpath : '\n' ∉ path)

include hcompile hnormalized hpath

/-- A filter without wildcards matches the pattern as it is normalised, and what lies below. -/
theorem matches_plain (hplain : isWild normalized = false) :
    filter.matches path = true ↔ Selects normalized (forwardSlashes path) := by
  obtain ⟨n, regexes, hn, hregexes, rfl⟩ := compile_singleton hcompile
  obtain rfl : n = normalized := Except.ok.inj (hn.symm.trans hnormalized)
  simp only [compilePathPattern, hplain, Bool.false_eq_true, if_false, bind_eq_ok, pure_eq_ok,
    compileRegex_eq_ok, Except.ok.injEq] at hregexes
  obtain ⟨itself, hitself, below, hbelow, rfl⟩ := hregexes
  rw [anchored_escape hcrate] at hitself
  rw [anchored_escape_below hcrate] at hbelow
  have hline := notMem_forwardSlashes hpath
  simp only [FilePathFilter.matches, isEmpty_cons, Bool.false_or, any_cons, any_nil,
    Bool.or_false, Bool.or_eq_true, hcrate.isMatch_iff _ _ hitself, hcrate.isMatch_iff _ _ hbelow,
    mem_language_literals, mem_language_below]
  refine or_congr_right ⟨?_, ?_⟩
  · rintro ⟨rest, -, hrest⟩
    exact ⟨rest, by simp [hrest]⟩
  · rintro ⟨rest, hrest⟩
    refine ⟨rest, fun hmem => hline ?_, by simp [← hrest]⟩
    exact hrest ▸ mem_append_right _ hmem

/-- A filter with wildcards matches the paths that split along the pattern. -/
theorem matches_wild (hwild : isWild normalized = true) :
    filter.matches path = true ↔ Splits (globPieces normalized) (forwardSlashes path) := by
  obtain ⟨n, regexes, hn, hregexes, rfl⟩ := compile_singleton hcompile
  obtain rfl : n = normalized := Except.ok.inj (hn.symm.trans hnormalized)
  simp only [compilePathPattern, hwild, if_true, bind_eq_ok, pure_eq_ok, compileGlob_eq_ok,
    Except.ok.injEq] at hregexes
  obtain ⟨regex, hregex, rfl⟩ := hregexes
  simp only [FilePathFilter.matches, isEmpty_cons, Bool.false_or, any_cons, any_nil,
    Bool.or_false, hcrate.isMatch_iff _ _ hregex]
  exact mem_language_iff_splits (notMem_forwardSlashes hpath)

end Compiled

/-! ## An engine for these patterns -/

/-- The characters with a meaning of their own in an expression. -/
def regexMeta : List Char := "\\.+*?()|[]{}^$#&-~".toList

def escapePatternChar (c : Char) : List Char := if c ∈ regexMeta then ['\\', c] else [c]

/-- The first piece of an expression and the rest. -/
def readPiece : List Char → Option (Piece × List Char)
  | '(' :: text => (stripPrefix "?:.*/)?".toList text).map (.folders, ·)
  | '.' :: text => (stripPrefix "*".toList text).map (.anyText, ·)
  | '[' :: text => (stripPrefix "^/]".toList text).map fun rest =>
    if rest.head? = some '*' then (.nameText, rest.tail) else (.nameChar, rest)
  | '\\' :: c :: text => some (.literal c, text)
  | c :: text => if c ∈ regexMeta then none else some (.literal c, text)
  | [] => none

def readPieces : ℕ → List Char → Option (List Piece)
  | 0, _ => none
  | n + 1, text =>
    if text = ['$'] then some []
    else do
      let (piece, rest) ← readPiece text
      return piece :: (← readPieces n rest)

def pieceRegex : RegexCrate where
  Regex := List Piece
  new text :=
    match text with
    | '^' :: body => (readPieces text.length body).elim (.error "no pattern".toList) .ok
    | _ => .error "no pattern".toList
  isMatch pieces text := admits pieces text
  escape text := text.flatMap escapePatternChar

theorem readPiece_text (piece : Piece) {rest : List Char} (h : rest.head? ≠ some '*') :
    readPiece (Piece.text pieceRegex piece ++ rest) = some (piece, rest) := by
  cases piece with
  | literal c =>
    change readPiece ((escapePatternChar c ++ []) ++ rest) = _
    unfold escapePatternChar
    split_ifs with hc
    · rfl
    · have hne : ∀ d ∈ regexMeta, c ≠ d := fun d hd heq => hc (heq ▸ hd)
      simp only [append_nil, cons_append, nil_append]
      rw [readPiece, if_neg hc]
      · exact hne _ (by decide)
      · exact hne _ (by decide)
      · exact hne _ (by decide)
      · exact fun _ _ h => absurd h (hne _ (by decide))
  | nameChar =>
    have hread : readPiece (Piece.text pieceRegex .nameChar ++ rest) =
        some (if rest.head? = some '*' then (.nameText, rest.tail) else (.nameChar, rest)) := rfl
    rw [hread, if_neg h]
  | nameText => rfl
  | anyText => rfl
  | folders => rfl

theorem head?_text (piece : Piece) (rest : List Char) :
    (Piece.text pieceRegex piece ++ rest).head? ≠ some '*' ∧
      Piece.text pieceRegex piece ++ rest ≠ ['$'] := by
  cases piece with
  | literal c =>
    change ((escapePatternChar c ++ []) ++ rest).head? ≠ _ ∧ (escapePatternChar c ++ []) ++ rest ≠ _
    unfold escapePatternChar
    split_ifs with hc
    · simp
    · have hne : ∀ d ∈ regexMeta, c ≠ d := fun d hd heq => hc (heq ▸ hd)
      have hstar := hne '*' (by decide)
      have hend := hne '$' (by decide)
      simp [hstar, hend]
  | nameChar =>
    exact ⟨fun h => absurd (Option.some.inj h) (by decide : '[' ≠ '*'),
      fun h => absurd (cons.inj h).1 (by decide : '[' ≠ '$')⟩
  | nameText =>
    exact ⟨fun h => absurd (Option.some.inj h) (by decide : '[' ≠ '*'),
      fun h => absurd (cons.inj h).1 (by decide : '[' ≠ '$')⟩
  | anyText =>
    exact ⟨fun h => absurd (Option.some.inj h) (by decide : '.' ≠ '*'),
      fun h => absurd (cons.inj h).1 (by decide : '.' ≠ '$')⟩
  | folders =>
    exact ⟨fun h => absurd (Option.some.inj h) (by decide : '(' ≠ '*'),
      fun h => absurd (cons.inj h).1 (by decide : '(' ≠ '$')⟩

theorem readPieces_text : ∀ (pieces : List Piece) {n : ℕ}, pieces.length < n →
    readPieces n (pieces.flatMap (Piece.text pieceRegex) ++ ['$']) = some pieces
  | [], n + 1, _ => rfl
  | piece :: pieces, n + 1, h => by
    have hhead : (pieces.flatMap (Piece.text pieceRegex) ++ ['$']).head? ≠ some '*' := by
      cases pieces with
      | nil => simp
      | cons piece pieces =>
        rw [flatMap_cons, append_assoc]
        exact (head?_text piece _).1
    rw [flatMap_cons, append_assoc, readPieces, if_neg (head?_text piece _).2,
      readPiece_text piece hhead]
    simp [readPieces_text pieces (Nat.lt_of_succ_lt_succ h)]

theorem length_le_flatMap_text (pieces : List Piece) :
    pieces.length ≤ (pieces.flatMap (Piece.text pieceRegex)).length := by
  induction pieces with
  | nil => exact le_rfl
  | cons piece pieces ih =>
    have hne : Piece.text pieceRegex piece ≠ [] := by
      intro hnil
      have hhead := (head?_text piece ['*']).1
      rw [hnil] at hhead
      exact hhead rfl
    have hlength := length_pos_iff.mpr hne
    rw [flatMap_cons, length_append, length_cons]
    omega

theorem pieceRegex_documented : pieceRegex.Documented where
  escape_eq text := by simp [pieceRegex]
  escape_slash := rfl
  isMatch_iff pieces regex h text := by
    have hlength := length_le_flatMap_text pieces
    have hshort : pieces.length < (regexText pieceRegex pieces).length := by
      simp only [regexText, anchored, length_append, length_cons]
      omega
    have hnew : pieceRegex.new (regexText pieceRegex pieces) =
        (readPieces (regexText pieceRegex pieces).length
          (pieces.flatMap (Piece.text pieceRegex) ++ ['$'])).elim
            (.error "no pattern".toList) .ok := rfl
    rw [hnew, readPieces_text pieces hshort] at h
    obtain rfl := Except.ok.inj h
    exact admits_iff

end CodeMoniker
