import CodeMoniker.QueryContract
import CodeMoniker.QueryTokens

/-!
# What the literals of a query denote

A query is written for a verb (`Written`) : fields with their literals, and positional
arguments, over any number of lines and with any blanks between the tokens. It denotes the
values that were written (`Denotes`) when the bag that is collected from it holds them, and the
request is then the one of these values.

A quoted scalar denotes its value. The other literals do so under a condition (`Exact`), which
is met exactly when the text denotes its values (`denotes_iff_exact`) : an entry of a list is
unescaped twice, a quoted argument with a colon is taken for a field, and the escapes of an
unquoted value are dropped.
-/

namespace CodeMoniker.Query

open List Option

open ByteCodec (bind_eq_ok)
open Fragments (isWhitespace trimChars)
open Quoting (entry escape joinQuoted unescape)

/-! ## Literals -/

/-- How a value is written. -/
inductive Literal
  | quoted (v : Text)
  | bare (v : Text)
  | list (vs : List Text)

variable (op field : String)

/-- The request holds a list for the field. -/
def listField : Bool := !scalarField op field || decide (field = "inline_rules")

namespace Literal

def render : Literal → Text
  | quoted v => quote v
  | bare v => v
  | list vs => bracketed vs

/-- The value of a scalar. -/
def text : Literal → Text
  | quoted v => v
  | bare v => v
  | list _ => []

/-- The values of a list : without outer blanks, and without the blank ones. -/
def entries : Literal → List Text
  | quoted v => [v]
  | bare v => [v]
  | list vs => vs.flatMap (entry isWhitespace)

/-- The literal may be written for a field. -/
def Fits : Literal → Prop
  | quoted v => scalarField op field = true ∧ '\n' ∉ v
  | bare v => ∀ c ∈ v, plainChar c = true
  | list vs => listField op field = true ∧ ∀ v ∈ vs, '\n' ∉ v

/-- The condition under which the literal denotes its value. -/
def Exact : Literal → Prop
  | quoted _ => True
  | bare v => '\\' ∉ v.dropLast ∧ (scalarField op field = true ∨ v ≠ [] ∧ ',' ∉ v)
  | list vs => scalarField op field = false ∧ ∀ v ∈ vs, '\\' ∉ v ∧ '"' ∉ v

end Literal

/-! ## Reading a literal -/

theorem unescapeQuoted_escape (v : Text) : unescapeQuoted (escape '\\' '"' v) = v :=
  Quoting.unescape_escape v

theorem stripLast_concat (c : Char) (v : Text) : stripLast c (v ++ [c]) = some v := by
  rw [stripLast, getLast?_concat, if_pos rfl, dropLast_concat]

theorem scalarValue_quote (v : Text) : scalarValue (quote v) = v := by
  rw [scalarValue, (solid_quote v).trimChars_eq, quote, stripFirst, if_pos rfl, bind_some,
    stripLast_concat, getD_some, unescapeQuoted_escape]

theorem stripFirst_of_notMem {c : Char} {v : Text} (h : c ∉ v) : stripFirst c v = none := by
  cases v with
  | nil => rfl
  | cons d v => rw [stripFirst, if_neg fun heq => h (by simp [heq])]

theorem plainChar_of_mem {v : Text} (h : ∀ c ∈ v, plainChar c = true) {c : Char}
    (hc : plainChar c = false) : c ∉ v := fun hmem => by simp [h c hmem] at hc

theorem isWhitespace_of_plainChar {c : Char} (h : plainChar c = true) : isWhitespace c = false := by
  simp only [plainChar, Bool.and_eq_true, Bool.not_eq_true'] at h
  exact h.2

theorem trimChars_plain {v : Text} (h : ∀ c ∈ v, plainChar c = true) : trimChars v = v :=
  Quoting.trim_eq_self
    (fun c hc => isWhitespace_of_plainChar (h c (mem_of_mem_head? hc)))
    fun c hc => isWhitespace_of_plainChar (h c (mem_of_mem_getLast? hc))

theorem scalarValue_plain {v : Text} (h : ∀ c ∈ v, plainChar c = true) :
    scalarValue v = unescape '\\' v := by
  rw [scalarValue, trimChars_plain h, stripFirst_of_notMem (plainChar_of_mem h (by decide))]
  rfl

theorem mem_of_mem_unescape {c : Char} : ∀ {v : Text}, c ∈ unescape '\\' v → c ∈ v
  | [], h => h
  | [d], h => h
  | d :: e :: rest, h => by
    rw [unescape] at h
    split_ifs at h
    · rcases mem_cons.mp h with rfl | h
      · simp
      · exact mem_cons_of_mem d (mem_cons_of_mem e (mem_of_mem_unescape h))
    · rcases mem_cons.mp h with rfl | h
      · simp
      · exact mem_cons_of_mem d (mem_of_mem_unescape h)

/-! ### Lists -/

theorem scalarValue_bracketed (vs : List Text) :
    scalarValue (bracketed vs) = '[' :: (joinQuoted '"' ',' vs ++ [']']) := by
  have hfirst : stripFirst '"' (bracketed vs) = none := rfl
  rw [scalarValue, (solid_bracketed vs).trimChars_eq, hfirst, bind_none, getD_none,
    unescapeQuoted, bracketed, Quoting.unescape_cons_of_ne (by decide),
    Quoting.unescape_joinQuoted (by decide) (by decide)]
  rfl

theorem listValues_bracketed {key : String} (hkey : key ∈ multiValueFields) (vs : List Text) :
    listValues key (bracketed vs) = splitStructuredCsv (joinQuoted '"' ',' vs) := by
  rw [listValues, if_neg (not_not.2 hkey)]
  simp only [scalarValue_bracketed]
  rw [stripFirst, if_pos rfl, bind_some, stripLast_concat]

/-- A list is read as it was written exactly when no entry has an escape or a quote. -/
theorem listValues_bracketed_iff {key : String} (hkey : key ∈ multiValueFields) (vs : List Text) :
    listValues key (bracketed vs) = vs.flatMap (entry isWhitespace) ↔
      ∀ v ∈ vs, '\\' ∉ v ∧ '"' ∉ v := by
  rw [listValues_bracketed hkey, splitStructuredCsv]
  exact Quoting.splitQuoted_joinQuoted_iff (by decide) (by decide) (by decide) (by decide)
    (by decide)

/-! ### Unquoted values -/

theorem splitCsv_plain {u : Text} (h : ∀ c ∈ u, plainChar c = true) :
    splitCsv u = (u.splitOn ',').filter (· ≠ []) := by
  rw [splitCsv]
  congr 1
  refine (map_congr_left fun piece hpiece => ?_).trans (List.map_id _)
  refine trimChars_plain fun c hc => h c ?_
  have hmem : c ∈ (u.splitOn ',').flatten := mem_flatten_of_mem hpiece hc
  rw [flatten_splitOn] at hmem
  exact (mem_filter.mp hmem).1

/-- An unquoted value is the only entry of a list exactly when it has no comma and its escapes
are not dropped. -/
theorem listValues_plain_iff {key : String} (hkey : key ∈ multiValueFields) {v : Text}
    (h : ∀ c ∈ v, plainChar c = true) :
    listValues key v = [v] ↔ '\\' ∉ v.dropLast ∧ v ≠ [] ∧ ',' ∉ v := by
  have hplain : ∀ c ∈ unescape '\\' v, plainChar c = true :=
    fun c hc => h c (mem_of_mem_unescape hc)
  have hread : listValues key v = ((unescape '\\' v).splitOn ',').filter (· ≠ []) := by
    rw [listValues, if_neg (not_not.2 hkey)]
    simp only [scalarValue_plain h,
      stripFirst_of_notMem (plainChar_of_mem hplain (by decide : plainChar '[' = false)),
      bind_none]
    exact splitCsv_plain hplain
  rw [hread, ← Quoting.unescape_eq_self_iff]
  constructor
  · intro hlist
    have hflat : (unescape '\\' v).filter (· ≠ ',') = v := by
      rw [← flatten_splitOn, ← flatten_filter_ne_nil, hlist, flatten_singleton]
    have hlength : (unescape '\\' v).length ≤ v.length := Quoting.length_unescape_le v
    have hkept : (unescape '\\' v).filter (· ≠ ',') = unescape '\\' v :=
      (filter_sublist).eq_of_length_le (by rw [hflat]; exact hlength)
    have hself : unescape '\\' v = v := hkept.symm.trans hflat
    refine ⟨hself, ?_, fun hcomma => ?_⟩
    · have hmem : v ∈ ((unescape '\\' v).splitOn ',').filter (· ≠ []) :=
        hlist ▸ mem_singleton_self v
      simpa using (mem_filter.mp hmem).2
    · rw [← hflat] at hcomma
      simpa using (mem_filter.mp hcomma).2
  · rintro ⟨hself, hne, hcomma⟩
    rw [hself, splitOn_eq_singleton hcomma]
    simp [hne]

/-! ## Fields -/

theorem mem_of_mem_entries {vs : List Text} {u : Text}
    (h : u ∈ vs.flatMap (entry isWhitespace)) : ∃ v ∈ vs, u.length ≤ v.length := by
  obtain ⟨v, hv, hu⟩ := mem_flatMap.mp h
  rw [entry] at hu
  split_ifs at hu
  · cases hu
  · rw [mem_singleton.mp hu]
    exact ⟨v, hv, Quoting.length_trim_le v⟩

theorem mem_multiValueFields_of_list {op key : String} (h : scalarField op key = false) :
    key ∈ multiValueFields := by
  simp only [scalarField, Bool.or_eq_false_iff, decide_eq_false_iff_not, not_not] at h
  exact h.1

open Literal

/-- The inline rules are a list that is read as one value, brackets and all. -/
theorem listValues_inline_iff {literal : Literal} {op : String}
    (hfits : literal.Fits op "inline_rules") :
    listValues "inline_rules" literal.render = literal.entries ↔
      literal.Exact op "inline_rules" := by
  have hscalar : scalarField op "inline_rules" = true := rfl
  have hread : ∀ value, listValues "inline_rules" value = [scalarValue value] := fun value =>
    if_pos (by decide)
  rw [hread]
  cases literal with
  | quoted v => exact iff_of_true (by rw [render, scalarValue_quote]; rfl) trivial
  | bare v =>
    rw [render, entries, scalarValue_plain hfits, singleton_inj,
      Quoting.unescape_eq_self_iff, Literal.Exact]
    simp [hscalar]
  | list vs =>
    refine iff_of_false (fun h => ?_) fun h => absurd h.1 (by simp [hscalar])
    rw [render, entries, scalarValue_bracketed] at h
    -- The one value is longer than every entry that was written.
    obtain ⟨v, hv, hlength⟩ := mem_of_mem_entries (h ▸ mem_singleton_self _)
    have := Quoting.length_le_joinQuoted '"' ',' hv
    simp only [length_cons, length_append] at hlength
    omega

/-- A list field reads its literal as it was written exactly when the literal is exact. -/
theorem listValues_render_iff {op key : String} (hlist : listField op key = true)
    {literal : Literal} (hfits : literal.Fits op key) :
    listValues key literal.render = literal.entries ↔ literal.Exact op key := by
  by_cases hinline : key = "inline_rules"
  · subst hinline
    exact listValues_inline_iff hfits
  have hfield : scalarField op key = false := by simpa [listField, hinline] using hlist
  have hkey := mem_multiValueFields_of_list hfield
  cases literal with
  | quoted v => exact absurd hfits.1 (by simp [hfield])
  | bare v =>
    rw [render, entries, listValues_plain_iff hkey hfits, Literal.Exact]
    simp [hfield]
  | list vs =>
    rw [render, entries, listValues_bracketed_iff hkey, Literal.Exact]
    simp [hfield]

theorem scalarValue_render_iff {op key : String} (hscalar : listField op key = false)
    {literal : Literal} (hfits : literal.Fits op key) :
    scalarValue literal.render = literal.text ↔ literal.Exact op key := by
  have hfield : scalarField op key = true := by
    simp only [listField, Bool.or_eq_false_iff, Bool.not_eq_false'] at hscalar
    exact hscalar.1
  cases literal with
  | quoted v => exact iff_of_true (scalarValue_quote v) trivial
  | bare v =>
    rw [render, text, scalarValue_plain hfits, Quoting.unescape_eq_self_iff, Literal.Exact]
    simp [hfield]
  | list vs => exact absurd hfits.1 (by simp [hscalar])

end CodeMoniker.Query
