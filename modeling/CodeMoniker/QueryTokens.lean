import CodeMoniker.QueryText

/-!
# Lines and tokens as they are written

A line is written as tokens with gaps between them. The tokenizer cuts such a line into the
tokens that were written (`tokenize_spaced`), whatever the gaps are, when each token is one that
it does not cut (`IsToken`) : a word without blanks, quotes and brackets, a quoted text, or a
list of quoted texts in brackets. A line break inside a quoted text ends the line and leaves the
quote open (`tokenize_openQuote`).
-/

namespace CodeMoniker.Query

open List Scan

open Fragments (isWhitespace trimChars)
open Quoting (entry escape joinQuoted trim)

/-! ## Lines -/

theorem trimChars_eq_trim (line : List Char) : trimChars line = trim isWhitespace line := rfl

theorem trimChars_stripLast (line : List Char) :
    trimChars ((stripLast '\r' line).getD line) = trimChars line := by
  rw [stripLast]
  split
  · rename_i hlast
    have hsplit := dropLast_append_getLast? '\r' hlast
    conv_rhs => rw [← hsplit]
    exact (Quoting.trim_append_blank (forall_mem_singleton.mpr (by decide)) line.dropLast).symm
  · rfl

theorem linesFrom_append {a : List Char} (h : '\n' ∉ a) (line rest : List Char) :
    linesFrom line (a ++ '\n' :: rest) =
      (stripLast '\r' (line ++ a)).getD (line ++ a) :: linesFrom [] rest := by
  induction a generalizing line with
  | nil => rw [nil_append, append_nil, linesFrom, if_pos rfl]
  | cons c a ih =>
    rw [mem_cons, not_or] at h
    rw [cons_append, linesFrom, if_neg fun heq => h.1 heq.symm, ih h.2, append_assoc]
    rfl

theorem linesFrom_last {a : List Char} (h : '\n' ∉ a) (line : List Char) :
    linesFrom line a = if line ++ a = [] then [] else [line ++ a] := by
  induction a generalizing line with
  | nil => rw [append_nil, linesFrom]
  | cons c a ih =>
    rw [mem_cons, not_or] at h
    rw [linesFrom, if_neg fun heq => h.1 heq.symm, ih h.2, append_assoc]
    rfl

theorem queryLines_append {a : List Char} (h : '\n' ∉ a) (rest : List Char) :
    queryLines (a ++ '\n' :: rest) = entry isWhitespace a ++ queryLines rest := by
  rw [queryLines, lines, linesFrom_append h, map_cons, nil_append,
    trimChars_stripLast, filter_cons, entry, ← trimChars_eq_trim]
  by_cases hnil : trimChars a = []
  · rw [if_neg (by simp [hnil]), if_pos hnil]
    rfl
  · rw [if_pos (by simp [hnil]), if_neg hnil]
    rfl

theorem queryLines_last {a : List Char} (h : '\n' ∉ a) : queryLines a = entry isWhitespace a := by
  rw [queryLines, lines, linesFrom_last h, nil_append, entry, ← trimChars_eq_trim]
  by_cases hnil : a = []
  · subst hnil
    rfl
  · rw [if_neg hnil, map_singleton, filter_cons, filter_nil]
    by_cases htrim : trimChars a = [] <;> simp [htrim]

/-- Lines with line breaks between them. -/
def joinLines (first : List Char) (further : List (List Char)) : List Char :=
  first ++ further.flatMap fun line => '\n' :: line

theorem queryLines_joinLines : ∀ {further : List (List Char)} {first : List Char}, '\n' ∉ first →
    (∀ line ∈ further, '\n' ∉ line) → queryLines (joinLines first further) =
      entry isWhitespace first ++ further.flatMap (entry isWhitespace)
  | [], first, h, _ => by
    rw [joinLines, flatMap_nil, append_nil, queryLines_last h, flatMap_nil, append_nil]
  | line :: further, first, h, hfurther => by
    have hline := hfurther line mem_cons_self
    rw [joinLines, flatMap_cons, cons_append, queryLines_append h, ← joinLines,
      queryLines_joinLines hline fun l hl => hfurther l (mem_cons_of_mem line hl),
      flatMap_cons]

/-! ## Gaps -/

/-- Blanks inside a line. -/
structure Blanks where
  text : List Char
  blank : ∀ c ∈ text, isWhitespace c = true ∧ c ≠ '\n'

/-- The blanks between two tokens. -/
structure Gap extends Blanks where
  ne_nil : text ≠ []

theorem Blanks.newline_notMem (b : Blanks) : '\n' ∉ b.text := fun h => (b.blank _ h).2 rfl

/-- A line with its tokens and the gaps before them. -/
def spaced (first : List Char) (rest : List (Gap × List Char)) : List Char :=
  first ++ rest.flatMap fun token => token.1.text ++ token.2

/-- A line between blanks. -/
def padded (before after : Blanks) (line : List Char) : List Char :=
  before.text ++ line ++ after.text

theorem trimChars_padded (before after : Blanks) (line : List Char) :
    trimChars (padded before after line) = trimChars line := by
  rw [padded, trimChars_eq_trim, Quoting.trim_append_blank fun c hc => (after.blank c hc).1,
    Quoting.trim_blank_append fun c hc => (before.blank c hc).1, trimChars_eq_trim]

/-! ## Tokens -/

namespace Scan

variable {s : Scan}

@[simp] theorem push_quoted (text : List Char) : (s.push text).quoted = s.quoted := rfl

@[simp] theorem push_bracketDepth (text : List Char) :
    (s.push text).bracketDepth = s.bracketDepth := rfl

@[simp] theorem push_push (a b : List Char) : (s.push a).push b = s.push (a ++ b) := by
  simp [push]

@[simp] theorem push_nil : s.push [] = s := by
  simp [push]

@[simp] theorem flush_quoted : s.flush.quoted = s.quoted := by
  rw [flush]
  split <;> rfl

@[simp] theorem flush_bracketDepth : s.flush.bracketDepth = s.bracketDepth := by
  rw [flush]
  split <;> rfl

@[simp] theorem flush_flush : s.flush.flush = s.flush := by
  by_cases h : s.current = [] <;> simp [flush, h]

theorem run_quote (rest : List Char) :
    s.run ('"' :: rest) = { s.push ['"'] with quoted := !s.quoted }.run rest := by
  rw [run.eq_def]
  rfl

theorem run_escaped (hs : s.quoted = true) (next : Char) (rest : List Char) :
    s.run ('\\' :: next :: rest) = (s.push ['\\', next]).run rest := by
  rw [run.eq_def]
  simp [hs]

theorem run_open (hs : s.quoted = false) (rest : List Char) :
    s.run ('[' :: rest) = { s.push ['['] with bracketDepth := s.bracketDepth + 1 }.run rest := by
  rw [run.eq_def]
  simp [hs]

theorem run_close (hs : s.quoted = false) (rest : List Char) :
    s.run (']' :: rest) = { s.push [']'] with bracketDepth := s.bracketDepth - 1 }.run rest := by
  rw [run.eq_def]
  simp [hs]

theorem run_blank (hs : s.quoted = false) (hdepth : s.bracketDepth = 0) {c : Char}
    (hc : isWhitespace c = true) (rest : List Char) : s.run (c :: rest) = s.flush.run rest := by
  have hne : ∀ d, isWhitespace d = false → c ≠ d := fun d hd heq => by simp [heq, hd] at hc
  rw [run.eq_def]
  simp [hs, hdepth, hc, hne '"' (by decide), hne '[' (by decide), hne ']' (by decide)]

/-- Inside the quotes every other character is kept. -/
theorem run_quoted (hs : s.quoted = true) {c : Char} (hquote : c ≠ '"') (hescape : c ≠ '\\')
    (rest : List Char) : s.run (c :: rest) = (s.push [c]).run rest := by
  rw [run.eq_def]
  simp [hs, hquote, hescape]

end Scan

/-- A character that an unquoted token keeps. -/
def plainChar (c : Char) : Bool :=
  decide (c ≠ '"') && decide (c ≠ '[') && decide (c ≠ ']') && !isWhitespace c

/-- Outside the quotes the scanner takes the text as part of the token that was begun. -/
def Pushed (text : List Char) : Prop :=
  ∀ (s : Scan) (rest : List Char), s.quoted = false → s.run (text ++ rest) = (s.push text).run rest

theorem Pushed.append {a b : List Char} (ha : Pushed a) (hb : Pushed b) : Pushed (a ++ b) :=
  fun s rest hs => by
    rw [append_assoc, ha s _ hs, hb (s.push a) rest hs, push_push]

theorem pushed_plain : ∀ {text : List Char}, (∀ c ∈ text, plainChar c = true) → Pushed text
  | [], _ => fun s rest _ => by rw [nil_append, push_nil]
  | c :: text, h => fun s rest hs => by
    have hc := h c mem_cons_self
    simp only [plainChar, Bool.and_eq_true, decide_eq_true_eq, Bool.not_eq_true'] at hc
    have hrest := pushed_plain fun d hd => h d (mem_cons_of_mem c hd)
    have hstep : s.run (c :: (text ++ rest)) = (s.push [c]).run (text ++ rest) := by
      rw [run.eq_def]
      simp [hs, hc.1.1.1, hc.1.1.2, hc.1.2, hc.2]
    rw [cons_append, hstep, hrest (s.push [c]) rest hs, push_push]
    rfl

variable (v : List Char)

/-- Inside the quotes an escaped text is kept with its escapes. -/
theorem run_escape : ∀ (s : Scan) (rest : List Char), s.quoted = true →
    s.run (escape '\\' '"' v ++ rest) = (s.push (escape '\\' '"' v)).run rest := by
  induction v with
  | nil => intro s rest _; rw [Quoting.escape_nil, nil_append, push_nil]
  | cons c v ih =>
    intro s rest hs
    rw [Quoting.escape_cons]
    by_cases hc : c = '\\' ∨ c = '"'
    · rw [if_pos hc, append_assoc, cons_append, cons_append, nil_append,
        run_escaped hs, ih (s.push ['\\', c]) rest hs, push_push]
    · rw [if_neg hc, append_assoc, cons_append, nil_append,
        run_quoted hs (fun h => hc (Or.inr h)) fun h => hc (Or.inl h),
        ih (s.push [c]) rest hs, push_push]

/-- A text between quotes. -/
def quote : List Char := '"' :: (escape '\\' '"' v ++ ['"'])

theorem pushed_quote : Pushed (quote v) := fun s rest hs => by
  rw [quote, cons_append, append_assoc, run_quote, hs,
    run_escape v _ _ (by rfl), cons_append, nil_append, run_quote]
  simp [push, hs]

variable (vs : List (List Char))

/-- A list of quoted texts in brackets. -/
def bracketed : List Char :=
  '[' :: (joinQuoted '"' ',' (vs.map (escape '\\' '"')) ++ [']'])

theorem pushed_joinQuoted : ∀ vs : List (List Char),
    Pushed (joinQuoted '"' ',' (vs.map (escape '\\' '"')))
  | [] => pushed_plain (by simp [joinQuoted])
  | [v] => pushed_quote v
  | v :: w :: vs => by
    have hcomma : Pushed [','] := pushed_plain (forall_mem_singleton.mpr (by decide))
    have hall := ((pushed_quote v).append hcomma).append (pushed_joinQuoted (w :: vs))
    rw [quote] at hall
    simpa [joinQuoted] using hall

theorem pushed_bracketed : Pushed (bracketed vs) := fun s rest hs => by
  rw [bracketed, cons_append, append_assoc, run_open hs,
    pushed_joinQuoted vs _ _ (by simpa using hs), cons_append, nil_append,
    run_close (by simpa using hs)]
  simp [push]

/-- A text that starts and ends with no blank. -/
structure Solid (text : List Char) : Prop where
  ne_nil : text ≠ []
  head : ∀ c ∈ text.head?, isWhitespace c = false
  last : ∀ c ∈ text.getLast?, isWhitespace c = false

variable {text : List Char}

theorem Solid.trimChars_eq (h : Solid text) : trimChars text = text :=
  Quoting.trim_eq_self h.head h.last

theorem Solid.append {a c : List Char} (ha : Solid a) (hc : Solid c) (b : List Char) :
    Solid (a ++ (b ++ c)) := by
  refine ⟨by simp [ha.ne_nil], fun d hd => ha.head d ?_, fun d hd => hc.last d ?_⟩
  · rwa [head?_append_of_ne_nil a ha.ne_nil] at hd
  · rwa [getLast?_append_of_ne_nil _ (by simp [hc.ne_nil]),
      getLast?_append_of_ne_nil _ hc.ne_nil] at hd

/-- A token that the tokenizer does not cut. -/
structure IsToken (text : List Char) : Prop where
  pushed : Pushed text
  solid : Solid text

theorem solid_plain (hne : text ≠ []) (h : ∀ c ∈ text, plainChar c = true) : Solid text := by
  have hblank : ∀ c ∈ text, isWhitespace c = false := fun c hc => by
    have := h c hc
    simp only [plainChar, Bool.and_eq_true, Bool.not_eq_true'] at this
    exact this.2
  exact ⟨hne, fun c hc => hblank c (mem_of_mem_head? hc),
    fun c hc => hblank c (mem_of_mem_getLast? hc)⟩

theorem isToken_plain (hne : text ≠ []) (h : ∀ c ∈ text, plainChar c = true) : IsToken text :=
  ⟨pushed_plain h, solid_plain hne h⟩

theorem solid_quote : Solid (quote v) := by
  refine ⟨by simp [quote], fun c hc => ?_, fun c hc => ?_⟩
  · obtain rfl : '"' = c := by simpa [quote] using hc
    decide
  · rw [quote, ← cons_append, getLast?_concat, Option.mem_some_iff] at hc
    exact hc ▸ by decide

theorem solid_bracketed : Solid (bracketed vs) := by
  refine ⟨by simp [bracketed], fun c hc => ?_, fun c hc => ?_⟩
  · obtain rfl : '[' = c := by simpa [bracketed] using hc
    decide
  · rw [bracketed, ← cons_append, getLast?_concat, Option.mem_some_iff] at hc
    exact hc ▸ by decide

theorem isToken_quote : IsToken (quote v) := ⟨pushed_quote v, solid_quote v⟩

/-- A key and a value make one token. -/
theorem IsToken.keyed {key value : List Char} (hkey : ∀ c ∈ key, plainChar c = true)
    (hvalue : Pushed value) (hlast : ∀ c ∈ value.getLast?, isWhitespace c = false) :
    IsToken (key ++ ':' :: value) := by
  have hplain : ∀ c ∈ key ++ [':'], plainChar c = true := fun c hc => by
    rcases mem_append.mp hc with hc | hc
    · exact hkey c hc
    · rw [mem_singleton.mp hc]
      decide
  have hsolid := solid_plain (by simp) hplain
  have hsplit : key ++ ':' :: value = (key ++ [':']) ++ value := by simp
  rw [hsplit]
  refine ⟨(pushed_plain hplain).append hvalue, by simp, fun c hc => hsolid.head c ?_,
    fun c hc => ?_⟩
  · rwa [head?_append_of_ne_nil _ hsolid.ne_nil] at hc
  · by_cases hnil : value = []
    · subst hnil
      rw [append_nil] at hc
      exact hsolid.last c hc
    · rw [getLast?_append_of_ne_nil _ hnil] at hc
      exact hlast c hc

/-! ## Lines of tokens -/

theorem run_gap (gap : Gap) {s : Scan} (rest : List Char) (hs : s.quoted = false)
    (hdepth : s.bracketDepth = 0) : s.run (gap.text ++ rest) = s.flush.run rest := by
  obtain ⟨⟨text, hblank⟩, hne⟩ := gap
  cases text with
  | nil => exact absurd rfl hne
  | cons c text =>
    have hc := (hblank c mem_cons_self).1
    rw [cons_append, run_blank hs hdepth hc]
    -- The blanks after the first one find no token to end.
    have hmore : ∀ {t : Scan}, t.quoted = false → t.bracketDepth = 0 → t.flush = t →
        ∀ {blanks : List Char}, (∀ c ∈ blanks, isWhitespace c = true) →
          t.run (blanks ++ rest) = t.run rest := by
      intro t ht ht' hflush blanks hblanks
      induction blanks with
      | nil => rfl
      | cons d blanks ih =>
        rw [cons_append, run_blank ht ht' (hblanks d mem_cons_self), hflush]
        exact ih fun c hc => hblanks c (mem_cons_of_mem d hc)
    exact hmore (by simpa using hs) (by simpa using hdepth) flush_flush
      fun d hd => (hblank d (mem_cons_of_mem c hd)).1

/-- The scanner after a line of tokens. -/
def Scan.through (s : Scan) (rest : List (Gap × List Char)) : Scan :=
  rest.foldl (fun s token => s.flush.push token.2) s

theorem Scan.through_quoted : ∀ (rest : List (Gap × List Char)) (s : Scan),
    (s.through rest).quoted = s.quoted
  | [], _ => rfl
  | token :: rest, s => (through_quoted rest (s.flush.push token.2)).trans flush_quoted

theorem Scan.through_bracketDepth : ∀ (rest : List (Gap × List Char)) (s : Scan),
    (s.through rest).bracketDepth = s.bracketDepth
  | [], _ => rfl
  | token :: rest, s =>
    (through_bracketDepth rest (s.flush.push token.2)).trans flush_bracketDepth

theorem Scan.flush_push_flush_tokens {s : Scan} {text : List Char} (h : text ≠ []) :
    (s.flush.push text).flush.tokens = s.flush.tokens ++ [text] := by
  by_cases hcurrent : s.current = [] <;> simp [flush, push, hcurrent, h]

theorem Scan.through_flush_tokens : ∀ (rest : List (Gap × List Char)) (s : Scan),
    (∀ token ∈ rest, IsToken token.2) →
      (s.through rest).flush.tokens = s.flush.tokens ++ rest.map Prod.snd
  | [], _, _ => by simp [through]
  | token :: rest, s, h => by
    have hne := (h token mem_cons_self).solid.ne_nil
    have ih := through_flush_tokens rest (s.flush.push token.2)
      fun t ht => h t (mem_cons_of_mem token ht)
    rw [flush_push_flush_tokens hne] at ih
    rw [map_cons]
    simpa [through] using ih

theorem run_tokens : ∀ (rest : List (Gap × List Char)) (s : Scan) (more : List Char),
    (∀ token ∈ rest, IsToken token.2) → s.quoted = false → s.bracketDepth = 0 →
      s.run ((rest.flatMap fun token => token.1.text ++ token.2) ++ more) = (s.through rest).run more
  | [], _, _, _, _, _ => rfl
  | token :: rest, s, more, h, hs, hdepth => by
    rw [flatMap_cons, append_assoc, append_assoc, run_gap _ _ hs hdepth,
      (h token mem_cons_self).pushed s.flush _ (by simpa using hs)]
    exact run_tokens rest (s.flush.push token.2) more
      (fun t ht => h t (mem_cons_of_mem token ht)) (by simpa using hs) (by simpa using hdepth)

variable {first : List Char} {rest : List (Gap × List Char)}

theorem run_spaced (hfirst : IsToken first) (hrest : ∀ token ∈ rest, IsToken token.2)
    (more : List Char) :
    run {} (spaced first rest ++ more) = (({} : Scan).push first |>.through rest).run more := by
  rw [spaced, append_assoc, hfirst.pushed {} _ rfl]
  exact run_tokens rest _ more hrest rfl rfl

/-- A line is cut into the tokens that it was written with. -/
theorem tokenize_spaced (hfirst : IsToken first) (hrest : ∀ token ∈ rest, IsToken token.2) :
    tokenize (spaced first rest) = .ok (first :: rest.map Prod.snd) := by
  have hrun := run_spaced hfirst hrest []
  rw [append_nil, run] at hrun
  rw [tokenize, hrun, through_quoted, through_flush_tokens rest _ hrest]
  simp [push, flush, hfirst.solid.ne_nil]

theorem solid_spaced (hfirst : Solid first) : ∀ {rest : List (Gap × List Char)},
    (∀ token ∈ rest, Solid token.2) → Solid (spaced first rest) := by
  intro rest hrest
  induction rest generalizing first with
  | nil => simpa [spaced] using hfirst
  | cons token rest ih =>
    have htail := ih (hrest token mem_cons_self)
      fun t ht => hrest t (mem_cons_of_mem token ht)
    have hwhole := hfirst.append htail token.1.text
    simpa [spaced] using hwhole

/-- A line that is written between blanks is read without them. -/
theorem entry_padded (before after : Blanks) (h : Solid first) :
    entry isWhitespace (padded before after first) = [first] := by
  rw [entry, ← trimChars_eq_trim, trimChars_padded, h.trimChars_eq, if_neg h.ne_nil]

/-! ## Open quotes -/

/-- A line that ends inside a quoted text. -/
def openQuote (first : List Char) (rest : List (Gap × List Char)) (gap : Gap) (v : List Char) :
    List Char :=
  spaced first rest ++ (gap.text ++ '"' :: escape '\\' '"' v)

theorem trimChars_openQuote (before : Blanks) (hfirst : Solid first) (gap : Gap) (v : List Char) :
    trimChars (before.text ++ openQuote first rest gap v) =
      openQuote first rest gap (v.rdropWhile isWhitespace) := by
  have hsplit : ∀ w, openQuote first rest gap w =
      (spaced first rest ++ gap.text ++ ['"']) ++ escape '\\' '"' w := fun w => by simp [openQuote]
  have hhead : ∀ c ∈ (openQuote first rest gap v).head?, isWhitespace c = false := fun c hc => by
    rw [openQuote, spaced, append_assoc, head?_append_of_ne_nil _ hfirst.ne_nil] at hc
    exact hfirst.head c hc
  rw [trimChars_eq_trim, Quoting.trim_blank_append fun c hc => (before.blank c hc).1, trim]
  have hdrop : (openQuote first rest gap v).dropWhile isWhitespace = openQuote first rest gap v := by
    cases hline : openQuote first rest gap v with
    | nil => rfl
    | cons c line =>
      exact dropWhile_cons_of_neg (by simp [hhead c (by rw [hline]; rfl)])
  rw [hdrop, hsplit, hsplit, Quoting.rdropWhile_append_of_last,
    Quoting.rdropWhile_escape (by decide) (by decide)]
  intro c hc
  rw [getLast?_concat, Option.mem_some_iff] at hc
  exact hc ▸ by decide

/-- A line that ends inside a quoted text is refused. -/
theorem tokenize_openQuote (hfirst : IsToken first) (hrest : ∀ token ∈ rest, IsToken token.2)
    (gap : Gap) (v : List Char) : tokenize (openQuote first rest gap v) =
      .error (.invalidToken (openQuote first rest gap v)) := by
  have hquoted : (run {} (openQuote first rest gap v)).quoted = true := by
    rw [openQuote, run_spaced hfirst hrest]
    rw [run_gap gap _ (by rw [through_quoted]; rfl) (by rw [through_bracketDepth]; rfl)]
    rw [Scan.run_quote, ← List.append_nil (escape '\\' '"' v), run_escape v, Scan.run]
    · simp [through_quoted]
    · simp [through_quoted]
  rw [tokenize]
  simp only [hquoted, if_true]

end CodeMoniker.Query
