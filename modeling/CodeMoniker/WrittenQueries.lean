import CodeMoniker.QueryLiterals

/-!
# Written queries

A query is written for a verb as fields with their literals and positional arguments on the
first line, and further lines of fields, which may start with `filter` or `page`
(`Written`). Blanks around the lines and between the tokens are of any kind and number.

The parser collects the bag of the tokens that were written (`collectText_text`), unless an
argument has a line break : the line then ends inside its quotes (`collectText_newline`).
-/

namespace CodeMoniker.Query

open List

open Fragments (isWhitespace)
open Quoting (entry escape joinQuoted unescape)

/-! ## Fields and arguments -/

/-- A field of a verb with its literal. -/
structure WrittenField (spec : QueryCapabilitySpec) where
  key : String
  literal : Literal
  allowed : requestFieldAllowed spec key = true
  fits : literal.Fits spec.name key

/-- A positional argument. An unquoted one is a token without a colon. -/
inductive Argument
  | quoted (v : Text)
  | bare (v : Text) (ne_nil : v ≠ []) (plain : ∀ c ∈ v, plainChar c = true) (noColon : ':' ∉ v)

namespace Argument

def render : Argument → Text
  | quoted v => quote v
  | bare v _ _ _ => v

def text : Argument → Text
  | quoted v => v
  | bare v _ _ _ => v

/-- The condition under which an argument is taken verbatim. -/
def Exact : Argument → Prop
  | quoted v => ':' ∉ v ∧ '\n' ∉ v
  | bare v _ _ _ => '\\' ∉ v.dropLast ∧ v.getLast? ≠ some ','

theorem isToken (a : Argument) : IsToken a.render := by
  cases a with
  | quoted v => exact isToken_quote v
  | bare v hne hplain hcolon => exact isToken_plain hne hplain

end Argument

theorem rdropWhile_quote (v : Text) : (quote v).rdropWhile (· = ',') = quote v := by
  rw [quote, ← cons_append]
  exact rdropWhile_concat_neg _ _ _ (by decide)

theorem notMem_quote {c : Char} (hquote : c ≠ '"') (hescape : c ≠ '\\') {v : Text} :
    c ∈ quote v ↔ c ∈ v := by
  rw [quote, mem_cons, mem_append, mem_singleton]
  exact ⟨fun h => Quoting.mem_of_mem_escape hescape (by simpa [hquote] using h),
    fun h => Or.inr (Or.inl (Quoting.mem_escape h))⟩

theorem splitOnce_isSome {sep : Char} {text : Text} (h : sep ∈ text) :
    ∃ before after, splitOnce sep text = some (before, after) ∧ sep ∉ before := by
  obtain ⟨before, after, rfl, hbefore⟩ := eq_append_cons_of_mem h
  exact ⟨before, after, splitOnce_append hbefore, hbefore⟩

open Statement

theorem tokenStatement_argument_iff (a : Argument) (hline : '\n' ∉ a.text) :
    (tokenStatement a.render).argument? = some a.text ↔ a.Exact := by
  cases a with
  | quoted v =>
    rw [Argument.render, Argument.text, Argument.Exact, tokenStatement]
    by_cases hcolon : ':' ∈ v
    · obtain ⟨key, value, hsplit, -⟩ :=
        splitOnce_isSome ((notMem_quote (by decide) (by decide)).mpr hcolon)
      rw [hsplit]
      exact iff_of_false (by simp [argument?]) fun h => h.1 hcolon
    · rw [splitOnce_eq_none fun h => hcolon ((notMem_quote (by decide) (by decide)).mp h)]
      refine iff_of_true ?_ ⟨hcolon, hline⟩
      simp only [rdropWhile_quote, scalarValue_quote]
      rfl
  | bare v hne hplain hcolon =>
    rw [Argument.render, Argument.text, Argument.Exact, tokenStatement, splitOnce_eq_none hcolon]
    have hstart : v.rdropWhile (· = ',') <+: v := List.rdropWhile_prefix _ _
    have hkept : ∀ c ∈ v.rdropWhile (· = ','), plainChar c = true := fun c hc =>
      hplain c (hstart.subset hc)
    simp only [argument?, Option.some.injEq, scalarValue_plain hkept]
    rw [← Quoting.unescape_eq_self_iff]
    have hself : v.getLast? ≠ some ',' ↔ v.rdropWhile (· = ',') = v := by
      rw [rdropWhile_eq_self_iff]
      constructor
      · intro h hl
        simpa [getLast?_eq_some_getLast hl] using h
      · intro h heq
        exact h hne (by simpa [getLast?_eq_some_getLast hne] using heq)
    rw [hself]
    constructor
    · intro h
      have hshort : (unescape '\\' (v.rdropWhile (· = ','))).length ≤
          (v.rdropWhile (· = ',')).length := Quoting.length_unescape_le _
      rw [h] at hshort
      have hwhole := hstart.eq_of_length_le hshort
      exact ⟨by rwa [hwhole] at h, hwhole⟩
    · rintro ⟨hunescape, hwhole⟩
      rw [hwhole, hunescape]

/-! ## Names -/

theorem mem_requestFields {spec : QueryCapabilitySpec} {key : String}
    (h : requestFieldAllowed spec key = true) : key ∈ requestFields spec := by
  simp only [requestFieldAllowed, Bool.or_eq_true, Bool.and_eq_true, decide_eq_true_eq] at h
  simp only [requestFields, mem_append]
  rcases h with ((h | h) | ⟨hpaginated, h⟩) | ⟨hbounded, h⟩
  · exact Or.inl (Or.inl (Or.inl h))
  · exact Or.inl (Or.inl (Or.inr h))
  · exact Or.inl (Or.inr (by rwa [if_pos hpaginated]))
  · exact Or.inr (by rwa [if_pos hbounded])

theorem verb_plain : ∀ spec ∈ queryCapabilitySpecs, spec.name.toList ≠ [] ∧
    ∀ c ∈ spec.name.toList, plainChar c = true := by
  have hall : ∀ spec ∈ queryCapabilitySpecs, spec.name.toList ≠ [] ∧
      spec.name.toList.all plainChar = true := by
    decide
  exact fun spec h => ⟨(hall spec h).1, all_eq_true.mp (hall spec h).2⟩

theorem field_plain : ∀ spec ∈ queryCapabilitySpecs, ∀ key ∈ requestFields spec,
    normalizeKey spec key = key ∧ ∀ c ∈ key.toList, plainChar c = true ∧ c ≠ ':' := by
  have hall : ∀ spec ∈ queryCapabilitySpecs, ∀ key ∈ requestFields spec,
      normalizeKey spec key = key ∧ key.toList.all plainChar = true ∧ ':' ∉ key.toList := by
    decide
  intro spec hspec key hkey
  obtain ⟨hnormal, hplain, hcolon⟩ := hall spec hspec key hkey
  exact ⟨hnormal, fun c hc => ⟨all_eq_true.mp hplain c hc, ne_of_mem_of_not_mem hc hcolon⟩⟩

namespace WrittenField

variable {spec : QueryCapabilitySpec}

def render (f : WrittenField spec) : Text := f.key.toList ++ ':' :: f.literal.render

theorem pushed_literal {op key : String} {literal : Literal} (h : literal.Fits op key) :
    Pushed literal.render := by
  cases literal with
  | quoted v => exact pushed_quote v
  | bare v => exact pushed_plain h
  | list vs => exact pushed_bracketed vs

theorem last_literal {op key : String} {literal : Literal} (h : literal.Fits op key) :
    ∀ c ∈ literal.render.getLast?, isWhitespace c = false := by
  cases literal with
  | quoted v => exact (solid_quote v).last
  | bare v => exact fun c hc => isWhitespace_of_plainChar (h c (mem_of_mem_getLast? hc))
  | list vs => exact (solid_bracketed vs).last

theorem newline_notMem_literal {op key : String} {literal : Literal} (h : literal.Fits op key) :
    '\n' ∉ literal.render := by
  cases literal with
  | quoted v => exact fun hmem => h.2 ((notMem_quote (by decide) (by decide)).mp hmem)
  | bare v => exact plainChar_of_mem h (by decide)
  | list vs =>
    intro hmem
    simp only [Literal.render, bracketed, mem_cons, mem_append, not_mem_nil,
      or_false, Char.reduceEq, false_or] at hmem
    obtain ⟨w, hw, hmem⟩ := Quoting.mem_of_mem_joinQuoted '"' ',' (by decide) (by decide) hmem
    obtain ⟨v, hv, rfl⟩ := mem_map.mp hw
    exact h.2 v hv (Quoting.mem_of_mem_escape (by decide) hmem)

variable (hspec : spec ∈ queryCapabilitySpecs) (f : WrittenField spec)

include hspec

theorem plain : normalizeKey spec f.key = f.key ∧
    ∀ c ∈ f.key.toList, plainChar c = true ∧ c ≠ ':' :=
  field_plain spec hspec f.key (mem_requestFields f.allowed)

theorem isToken : IsToken f.render :=
  IsToken.keyed (fun c hc => ((f.plain hspec).2 c hc).1) (pushed_literal f.fits)
    (last_literal f.fits)

theorem newline_notMem : '\n' ∉ f.render := by
  rw [render, mem_append, mem_cons, not_or, not_or]
  exact ⟨plainChar_of_mem (fun c hc => ((f.plain hspec).2 c hc).1) (by decide), by decide,
    newline_notMem_literal f.fits⟩

theorem tokenStatement_render : tokenStatement f.render = .field f.key f.literal.render := by
  have hcolon : ':' ∉ f.key.toList := fun h => ((f.plain hspec).2 _ h).2 rfl
  rw [tokenStatement, render, splitOnce_append hcolon]
  simp only [String.ofList_toList]

end WrittenField

/-! ## Lines of items -/

inductive Item (spec : QueryCapabilitySpec)
  | field (f : WrittenField spec)
  | argument (a : Argument)

namespace Item

variable {spec : QueryCapabilitySpec}

def render : Item spec → Text
  | field f => f.render
  | argument a => a.render

def field? : Item spec → Option (WrittenField spec)
  | field f => some f
  | argument _ => none

def argument? : Item spec → Option Argument
  | field _ => none
  | argument a => some a

theorem isToken (hspec : spec ∈ queryCapabilitySpecs) (item : Item spec) : IsToken item.render := by
  cases item with
  | field f => exact f.isToken hspec
  | argument a => exact a.isToken

end Item

/-- The word that a line of fields may start with. -/
inductive Heading
  | filter
  | page

def Heading.word : Heading → String
  | filter => "filter"
  | page => "page"

theorem Heading.plain (h : Heading) : h.word.toList ≠ [] ∧
    ∀ c ∈ h.word.toList, plainChar c = true := by
  have hall : h.word.toList ≠ [] ∧ h.word.toList.all plainChar = true := by
    cases h <;> decide
  exact ⟨hall.1, all_eq_true.mp hall.2⟩

/-- How a line of fields starts. -/
inductive Lead (spec : QueryCapabilitySpec)
  | heading (h : Heading)
  | field (f : WrittenField spec)

namespace Lead

variable {spec : QueryCapabilitySpec}

def render : Lead spec → Text
  | heading h => h.word.toList
  | field f => f.render

def fields : Lead spec → List (WrittenField spec)
  | heading _ => []
  | field f => [f]

theorem isToken (hspec : spec ∈ queryCapabilitySpecs) (lead : Lead spec) : IsToken lead.render := by
  cases lead with
  | heading h => exact isToken_plain h.plain.1 h.plain.2
  | field f => exact f.isToken hspec

theorem newline_notMem (hspec : spec ∈ queryCapabilitySpecs) (lead : Lead spec) :
    '\n' ∉ lead.render := by
  cases lead with
  | heading h => exact plainChar_of_mem h.plain.2 (by decide)
  | field f => exact f.newline_notMem hspec

end Lead

/-- A line of fields after the first line. -/
structure FieldLine (spec : QueryCapabilitySpec) where
  before : Blanks
  after : Blanks
  lead : Lead spec
  rest : List (Gap × WrittenField spec)

namespace FieldLine

variable {spec : QueryCapabilitySpec} (line : FieldLine spec)

def body : Text := spaced line.lead.render (line.rest.map fun item => (item.1, item.2.render))

def render : Text := padded line.before line.after line.body

def fields : List (WrittenField spec) := line.lead.fields ++ line.rest.map Prod.snd

variable (hspec : spec ∈ queryCapabilitySpecs)

include hspec

theorem isToken_rest : ∀ token ∈ line.rest.map fun item => (item.1, item.2.render),
    IsToken token.2 := by
  intro token htoken
  obtain ⟨item, -, rfl⟩ := mem_map.mp htoken
  exact item.2.isToken hspec

theorem solid_body : Solid line.body :=
  solid_spaced (line.lead.isToken hspec).solid fun token h => (line.isToken_rest hspec token h).solid

theorem entry_render : entry isWhitespace line.render = [line.body] :=
  entry_padded line.before line.after (line.solid_body hspec)

theorem newline_notMem : '\n' ∉ line.render := by
  simp only [render, padded, body, spaced, mem_append, mem_flatMap, mem_map, not_or,
    not_exists, not_and]
  refine ⟨⟨line.before.newline_notMem, line.lead.newline_notMem hspec, ?_⟩,
    line.after.newline_notMem⟩
  rintro token ⟨item, -, rfl⟩
  exact ⟨item.1.newline_notMem, item.2.newline_notMem hspec⟩

/-- A line of fields collects its fields. -/
theorem collectLine_body (bag : FieldBag) :
    collectLine bag line.body = .ok (collectTokens (line.fields.map WrittenField.render) bag) := by
  have htokens := tokenize_spaced (line.lead.isToken hspec) (line.isToken_rest hspec)
  have hrest : (line.rest.map fun item => (item.1, item.2.render)).map Prod.snd =
      (line.rest.map Prod.snd).map WrittenField.render := by simp
  rw [hrest] at htokens
  rw [collectLine, body, htokens, ByteCodec.ok_bind, fields]
  cases line.lead with
  | heading h => cases h <;> rfl
  | field f =>
    have hcolon : ':' ∈ f.render := by simp [WrittenField.render]
    simp only [Lead.render, hcolon, if_true]
    rfl

end FieldLine

/-! ## Written queries -/

/-- A query as it is written : the verb with its items on the first line, and lines of fields. -/
structure Written (spec : QueryCapabilitySpec) where
  known : spec ∈ queryCapabilitySpecs
  before : Blanks
  after : Blanks
  items : List (Gap × Item spec)
  further : List (FieldLine spec)
  distinct : ((items.filterMap (·.2.field?) ++ further.flatMap FieldLine.fields).map
    WrittenField.key).Nodup

section Items

variable {spec : QueryCapabilitySpec}

/-- What the fields of a list leave in a bag. -/
def fieldValues (fields : List (WrittenField spec)) : List (String × Text) :=
  fields.map fun f => (f.key, f.literal.render)

variable (hspec : spec ∈ queryCapabilitySpecs)

include hspec

theorem statements_fields : ∀ fields : List (WrittenField spec),
    (fields.map WrittenField.render).map tokenStatement =
      fields.map fun f => .field f.key f.literal.render
  | [] => rfl
  | f :: fields => by
    rw [map_cons, map_cons, map_cons, f.tokenStatement_render hspec, statements_fields fields]

theorem items_values : ∀ items : List (Gap × Item spec),
    (∀ a ∈ items.filterMap (·.2.argument?), (tokenStatement a.render).argument? = some a.text) →
      ((items.map (·.2.render)).map tokenStatement).filterMap value? =
        fieldValues (items.filterMap (·.2.field?))
  | [], _ => rfl
  | (gap, .field f) :: items, h => by
    have ih := items_values items h
    have hvalue : (field f.key f.literal.render).value? =
        some (f.key, f.literal.render) := rfl
    rw [map_cons, map_cons, Item.render, f.tokenStatement_render hspec,
      filterMap_cons_some hvalue, ih]
    rfl
  | (gap, .argument a) :: items, h => by
    have ih := items_values items fun b hb => h b (mem_cons_of_mem a hb)
    have ha := h a mem_cons_self
    have hnone : (tokenStatement a.render).value? = none := by
      generalize tokenStatement a.render = statement at ha
      cases statement <;> first | rfl | cases ha
    rw [map_cons, map_cons, Item.render, filterMap_cons_none hnone, ih]
    rfl

theorem items_arguments : ∀ items : List (Gap × Item spec),
    ((items.map (·.2.render)).map tokenStatement).filterMap argument? =
      (items.filterMap (·.2.argument?)).filterMap fun a => (tokenStatement a.render).argument?
  | [] => rfl
  | (gap, .field f) :: items => by
    rw [map_cons, map_cons, Item.render, f.tokenStatement_render hspec,
      filterMap_cons_none rfl, items_arguments items]
    rfl
  | (gap, .argument a) :: items => by
    have hitems : ((gap, Item.argument a) :: items).filterMap (·.2.argument?) =
        a :: items.filterMap (·.2.argument?) := rfl
    rw [hitems, filterMap_cons, map_cons, map_cons, Item.render,
      filterMap_cons, items_arguments items]

end Items

namespace Written

variable {spec : QueryCapabilitySpec} (w : Written spec)

def fields : List (WrittenField spec) :=
  w.items.filterMap (·.2.field?) ++ w.further.flatMap FieldLine.fields

def arguments : List Argument := w.items.filterMap (·.2.argument?)

def body : Text := spaced spec.name.toList (w.items.map fun item => (item.1, item.2.render))

def text : Text := joinLines (padded w.before w.after w.body) (w.further.map FieldLine.render)

/-- The tokens of the fields and the arguments. -/
def tokens : List Text :=
  w.items.map (·.2.render) ++ (w.further.flatMap FieldLine.fields).map WrittenField.render

/-- The bag of the tokens. -/
def bag : FieldBag := collectTokens w.tokens {}

theorem isToken_verb (w : Written spec) : IsToken spec.name.toList :=
  isToken_plain (verb_plain spec w.known).1 (verb_plain spec w.known).2

theorem isToken_items : ∀ token ∈ w.items.map fun item => (item.1, item.2.render),
    IsToken token.2 := by
  intro token htoken
  obtain ⟨item, -, rfl⟩ := mem_map.mp htoken
  exact item.2.isToken w.known

theorem solid_body : Solid w.body :=
  solid_spaced w.isToken_verb.solid fun token h => (w.isToken_items token h).solid

theorem newline_notMem_argument {a : Argument} (h : '\n' ∉ a.text) : '\n' ∉ a.render := by
  cases a with
  | quoted v => exact fun hmem => h ((notMem_quote (by decide) (by decide)).mp hmem)
  | bare v _ _ _ => exact h

theorem newline_notMem_line (hlines : ∀ a ∈ w.arguments, '\n' ∉ a.text) :
    '\n' ∉ padded w.before w.after w.body := by
  simp only [padded, body, spaced, mem_append, mem_flatMap, mem_map, not_or, not_exists, not_and]
  refine ⟨⟨w.before.newline_notMem, plainChar_of_mem (verb_plain spec w.known).2 (by decide), ?_⟩,
    w.after.newline_notMem⟩
  rintro token ⟨⟨gap, item⟩, hitem, rfl⟩
  refine ⟨gap.newline_notMem, ?_⟩
  cases item with
  | field f => exact f.newline_notMem w.known
  | argument a =>
    exact newline_notMem_argument (hlines a (mem_filterMap.mpr ⟨_, hitem, rfl⟩))

theorem queryLines_text (hlines : ∀ a ∈ w.arguments, '\n' ∉ a.text) :
    queryLines w.text = w.body :: w.further.map FieldLine.body := by
  have hfurther : ∀ line ∈ w.further.map FieldLine.render, '\n' ∉ line := by
    intro line hline
    obtain ⟨l, -, rfl⟩ := mem_map.mp hline
    exact l.newline_notMem w.known
  have hbodies : (w.further.map FieldLine.render).flatMap (entry isWhitespace) =
      w.further.map FieldLine.body := by
    rw [flatMap_map, map_eq_flatMap]
    exact flatMap_congr fun line _ => line.entry_render w.known
  rw [text, queryLines_joinLines (w.newline_notMem_line hlines) hfurther,
    entry_padded w.before w.after w.solid_body, hbodies]
  rfl

theorem collectLines_further (hspec : spec ∈ queryCapabilitySpecs) :
    ∀ (further : List (FieldLine spec)) (fields : FieldBag),
      (further.map FieldLine.body).foldlM collectLine fields =
        .ok (collectTokens ((further.flatMap FieldLine.fields).map WrittenField.render) fields)
  | [], _ => rfl
  | line :: further, fields => by
    rw [map_cons, foldlM_cons, line.collectLine_body hspec, ByteCodec.ok_bind,
      collectLines_further hspec further, flatMap_cons, map_append]
    simp only [collectTokens, foldl_append]

/-- Without line breaks in the arguments, a written query collects the bag of its tokens. -/
theorem collectText_text (hlines : ∀ a ∈ w.arguments, '\n' ∉ a.text) :
    collectText w.text = .ok (spec.name, w.bag) := by
  have htokens := tokenize_spaced w.isToken_verb w.isToken_items
  have hrest : (w.items.map fun item => (item.1, item.2.render)).map Prod.snd =
      w.items.map (·.2.render) := by simp
  rw [hrest] at htokens
  rw [collectText, w.queryLines_text hlines]
  simp only [body, htokens, ByteCodec.ok_bind, collectLines_further w.known, String.ofList_toList,
    bag, tokens, collectTokens, foldl_append]
  rfl

end Written

/-! ## Line breaks in an argument -/

namespace Written

variable {spec : QueryCapabilitySpec} (w : Written spec)

theorem spaced_append (first : Text) (pre post : List (Gap × Text)) (token : Gap × Text) :
    spaced first (pre ++ token :: post) = spaced first pre ++ (token.1.text ++ (token.2 ++
        post.flatMap fun token => token.1.text ++ token.2)) := by
  simp [spaced]

/-- A line break in a quoted argument ends the first line inside the quotes. -/
theorem queryLines_newline {a : Argument} (ha : a ∈ w.arguments) (hline : '\n' ∈ a.text) :
    ∃ pre gap v more, (∀ token ∈ pre, IsToken token.2) ∧
      queryLines w.text = openQuote spec.name.toList pre gap v :: more := by
  obtain ⟨⟨gap, item⟩, hitem, hargument⟩ := mem_filterMap.mp ha
  have hfound : (w.items.find? fun item => '\n' ∈ item.2.render).isSome := by
    rw [find?_isSome]
    refine ⟨(gap, item), hitem, ?_⟩
    cases item with
    | field f => cases hargument
    | argument b =>
      obtain rfl : b = a := Option.some.inj hargument
      cases b with
      | quoted v => exact decide_eq_true ((notMem_quote (by decide) (by decide)).mpr hline)
      | bare v _ _ _ => exact decide_eq_true hline
  obtain ⟨⟨gap, item⟩, hfound⟩ := Option.isSome_iff_exists.mp hfound
  obtain ⟨hbreak, pre, post, hsplit, hpre⟩ := find?_eq_some_iff_append.mp hfound
  have hmem : ∀ i ∈ pre, i ∈ w.items := fun i hi => hsplit ▸ mem_append_left _ hi
  cases item with
  | field f => exact absurd (of_decide_eq_true hbreak) (f.newline_notMem w.known)
  | argument b =>
    cases b with
    | bare v hne hplain hcolon =>
      exact absurd (of_decide_eq_true hbreak) (plainChar_of_mem hplain (by decide))
    | quoted v =>
      have hv : '\n' ∈ v :=
        (notMem_quote (by decide) (by decide)).mp (of_decide_eq_true hbreak)
      obtain ⟨head, tail, rfl, hhead⟩ := eq_append_cons_of_mem hv
      have htokens : ∀ token ∈ pre.map fun item => (item.1, item.2.render), IsToken token.2 := by
        intro token htoken
        exact w.isToken_items token (map_subset _ hmem htoken)
      have hescape : escape '\\' '"' (head ++ '\n' :: tail) =
          escape '\\' '"' head ++ '\n' :: escape '\\' '"' tail := by
        simp [escape]
      have hopen : '\n' ∉ w.before.text ++
          openQuote spec.name.toList (pre.map fun item => (item.1, item.2.render)) gap head := by
        simp only [openQuote, spaced, mem_append, mem_cons, mem_flatMap,
          mem_map, not_or, not_exists, not_and]
        refine ⟨w.before.newline_notMem,
          ⟨plainChar_of_mem (verb_plain spec w.known).2 (by decide), ?_⟩, gap.newline_notMem,
          by decide, fun h => hhead (Quoting.mem_of_mem_escape (by decide) h)⟩
        rintro token ⟨i, hi, rfl⟩
        exact ⟨i.1.newline_notMem, by simpa using hpre i hi⟩
      obtain ⟨rest, htext⟩ : ∃ rest, w.text = (w.before.text ++
          openQuote spec.name.toList (pre.map fun item => (item.1, item.2.render)) gap head) ++
            '\n' :: rest := by
        rw [text, joinLines, padded, body, hsplit, map_append, map_cons, spaced_append]
        simp only [Item.render, Argument.render, quote, hescape, openQuote, append_assoc,
          cons_append]
        exact ⟨_, rfl⟩
      refine ⟨_, gap, head.rdropWhile isWhitespace, queryLines rest, htokens, ?_⟩
      have hne : openQuote spec.name.toList (pre.map fun item => (item.1, item.2.render)) gap
          (head.rdropWhile isWhitespace) ≠ [] := by simp [openQuote]
      rw [htext, queryLines_append hopen, entry, ← trimChars_eq_trim,
        trimChars_openQuote w.before w.isToken_verb.solid, if_neg hne]
      rfl

/-- A line break in an argument is an error. -/
theorem collectText_newline {a : Argument} (ha : a ∈ w.arguments) (hline : '\n' ∈ a.text)
    (result : String × FieldBag) : collectText w.text ≠ .ok result := by
  obtain ⟨pre, gap, v, more, hpre, hlines⟩ := w.queryLines_newline ha hline
  rw [collectText, hlines]
  simp only [tokenize_openQuote w.isToken_verb hpre]
  exact fun h => by cases h

/-! ## What the bag of a written query holds -/

theorem leaves_bag : Leaves (w.tokens.map tokenStatement) w.bag :=
  leaves_of_collect (collect_tokens w.tokens {})

theorem bag_arguments :
    w.bag.positional = w.arguments.filterMap fun a => (tokenStatement a.render).argument? := by
  have hfields : ∀ fields : List (WrittenField spec),
      (fields.map fun f => field f.key f.literal.render).filterMap
        argument? = [] := fun fields => by
    rw [filterMap_map]
    exact filterMap_eq_nil_iff.mpr fun f _ => rfl
  rw [w.leaves_bag.positional, tokens, map_append, filterMap_append,
    items_arguments w.known, statements_fields w.known, hfields, append_nil, arguments]

theorem bag_values (h : ∀ a ∈ w.arguments, (tokenStatement a.render).argument? = some a.text) :
    w.bag.values = fieldValues w.fields := by
  have hfields : ∀ fields : List (WrittenField spec),
      (fields.map fun f => field f.key f.literal.render).filterMap value? =
        fieldValues fields := fun fields => by
    rw [filterMap_map, fieldValues, ← filterMap_eq_map]
    rfl
  rw [w.leaves_bag.values, tokens, map_append, filterMap_append,
    items_values w.known w.items h, statements_fields w.known, hfields, fields, fieldValues,
    fieldValues, fieldValues, map_append]

end Written

theorem collectTokens_frame : ∀ (tokens : List Text) (bag : FieldBag),
    (collectTokens tokens bag).projection = bag.projection ∧
      (collectTokens tokens bag).consistency = bag.consistency
  | [], _ => ⟨rfl, rfl⟩
  | token :: tokens, bag => by
    have hstep : (collectToken bag token).projection = bag.projection ∧
        (collectToken bag token).consistency = bag.consistency := by
      rw [collectToken]
      split <;> exact ⟨rfl, rfl⟩
    obtain ⟨hprojection, hconsistency⟩ := collectTokens_frame tokens (collectToken bag token)
    exact ⟨hprojection.trans hstep.1, hconsistency.trans hstep.2⟩

end CodeMoniker.Query
