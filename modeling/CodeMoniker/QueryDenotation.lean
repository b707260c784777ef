import CodeMoniker.WrittenQueries

/-!
# What a written query denotes

A request depends on the text of a query only through the values that the bag holds
(`SameReadings.requestOf`). A written query denotes its values (`Denotes`) when the bag that is
collected from it holds them and nothing else, so that its request is the one of these values.

A quoted scalar always denotes its value. The other literals do so under a condition (`Exact`),
which is met exactly when the query denotes its values (`denotes_iff_exact`) : an entry of a
list is unescaped twice, the inline rules are a list that is read as one value, a quoted
argument with a colon is taken for a field, and the escapes of an unquoted value are dropped.
-/

namespace CodeMoniker.Query

open List

/-! ## Requests of equal readings -/

/-- Two bags hold the same values for a verb. -/
structure SameReadings (op : String) (f g : FieldBag) : Prop where
  present : ∀ key, f.one key = none ↔ g.one key = none
  one : ∀ key, listField op key = false → f.one key = g.one key
  many : ∀ key, listField op key = true → f.many key = g.many key
  positional : f.positional = g.positional
  projection : f.projection = g.projection
  consistency : f.consistency = g.consistency

/-- A bag whose names are those of the verb and whose values pass their check. -/
structure Passes (spec : QueryCapabilitySpec) (bag : FieldBag) : Prop where
  normal : normalizeFieldAliases spec bag = bag
  valid : validateValues spec.name spec bag.values = .ok ()

namespace SameReadings

variable {op : String} {spec : QueryCapabilitySpec} {f g : FieldBag}

theorem page (h : SameReadings op f g) : f.page = g.page := by
  have hlimit : listField op "limit" = false := rfl
  have hcursor : listField op "cursor" = false := rfl
  rw [FieldBag.page, FieldBag.page, FieldBag.usize, FieldBag.usize, h.one _ hlimit, h.one _ hcursor]

theorem readConsistency (h : SameReadings op f g) : f.readConsistency = g.readConsistency := by
  have hkey : listField op "consistency" = false := rfl
  rw [FieldBag.readConsistency, FieldBag.readConsistency, h.one _ hkey, h.consistency]

theorem positional_scalar : ∀ key, positionalField op = some key → listField op key = false := by
  intro key hkey
  unfold positionalField at hkey
  split at hkey <;> first | (cases hkey; rfl) | cases hkey

theorem validateFields (h : SameReadings op f g)
    (hvalues : validateValues op spec f.values = validateValues op spec g.values) :
    validateFields op spec f = Query.validateFields op spec g := by
  have hpositional : validatePositional op f = validatePositional op g := by
    rw [validatePositional, validatePositional]
    cases hkey : positionalField op with
    | none => rfl
    | some key => simp only [h.positional, h.one key (positional_scalar key hkey)]
  have hrequired : validateRequired spec f = validateRequired spec g := by
    simp only [validateRequired, h.positional, h.present]
  rw [Query.validateFields, Query.validateFields, hvalues, hpositional, hrequired,
    validateArguments, validateArguments, validateProjection, validateProjection, h.positional,
    h.projection]

theorem buildQuery (h : SameReadings op f g) : buildQuery f op = Query.buildQuery g op := by
  unfold Query.buildQuery
  split <;>
    simp (disch := decide) only [treeChildrenQuery, symbolSearchQuery, symbolInsightsQuery,
      symbolDetailQuery, syntaxTreeQuery, syntaxParseQuery, symbolUsagesQuery, viewReadQuery,
      rulesListQuery, rulesCheckQuery, rulesApplicableQuery, changeContextQuery, symbolGraphQuery,
      graphPathQuery, graphCorridorQuery, identityChildrenQuery, identityGraphQuery,
      metricsCouplingQuery, resolutionAuditQuery, notesQuery, FieldBag.bool, FieldBag.usize,
      oneOrPositional, h.one, h.many, h.positional, h.projection]

/-- A request is determined by the values that its bag holds. -/
theorem requestOf (h : SameReadings spec.name f g)
    (hspec : queryCapabilitySpec spec.name = some spec) (hf : Passes spec f) (hg : Passes spec g) :
    requestOf spec.name f = Query.requestOf spec.name g := by
  rw [Query.requestOf, Query.requestOf, hspec]
  simp only [hf.normal, hg.normal, h.validateFields (hf.valid.trans hg.valid.symm),
    h.readConsistency, h.page, h.buildQuery]

end SameReadings

/-! ## Denotation -/

section Lookup

variable {spec : QueryCapabilitySpec}

theorem find_fieldValues : ∀ {fields : List (WrittenField spec)} {f : WrittenField spec},
    (fields.map WrittenField.key).Nodup → f ∈ fields →
      (fieldValues fields).find? (fun entry => entry.1 = f.key) = some (f.key, f.literal.render) ∧
        (fieldValues fields).filter (fun entry => entry.1 = f.key) = [(f.key, f.literal.render)]
  | first :: fields, f, hnodup, hf => by
    rw [map_cons, nodup_cons] at hnodup
    rw [fieldValues, map_cons, find?_cons, filter_cons, ← fieldValues]
    rcases mem_cons.mp hf with rfl | hf
    · have hnone : (fieldValues fields).filter (fun entry => entry.1 = f.key) = [] := by
        rw [filter_eq_nil_iff]
        rintro entry hentry heq
        obtain ⟨g, hg, rfl⟩ := mem_map.mp hentry
        exact hnodup.1 (mem_map.mpr ⟨g, hg, of_decide_eq_true heq⟩)
      simp [hnone]
    · have hne : first.key ≠ f.key := fun heq => hnodup.1 (heq ▸ mem_map_of_mem hf)
      obtain ⟨hfind, hfilter⟩ := find_fieldValues hnodup.2 hf
      simp [hne, hfind, hfilter]

variable {bag : FieldBag} {fields : List (WrittenField spec)}
  (hvalues : bag.values = fieldValues fields)

include hvalues

theorem one_of_fieldValues (hnodup : (fields.map WrittenField.key).Nodup) {f : WrittenField spec}
    (hf : f ∈ fields) : bag.one f.key = some (scalarValue f.literal.render) := by
  rw [FieldBag.one, hvalues, (find_fieldValues hnodup hf).1, Option.map_some]

theorem many_of_fieldValues (hnodup : (fields.map WrittenField.key).Nodup) {f : WrittenField spec}
    (hf : f ∈ fields) : bag.many f.key = listValues f.key f.literal.render := by
  rw [FieldBag.many, hvalues, (find_fieldValues hnodup hf).2, flatMap_singleton]

theorem one_absent {key : String} (h : ∀ f ∈ fields, f.key ≠ key) : bag.one key = none := by
  refine one_eq_none fun value hmem => ?_
  rw [hvalues] at hmem
  obtain ⟨f, hf, heq⟩ := mem_map.mp hmem
  exact h f hf (congrArg Prod.fst heq)

end Lookup

theorem many_of_one_eq_none {bag : FieldBag} {key : String} (h : bag.one key = none) :
    bag.many key = [] := by
  rw [FieldBag.one, Option.map_eq_none_iff, find?_eq_none] at h
  rw [FieldBag.many, filter_eq_nil_iff.mpr h]
  rfl

namespace Written

variable {spec : QueryCapabilitySpec} (w : Written spec)

/-- A bag holds the values that were written, and nothing else. -/
structure Holds (bag : FieldBag) : Prop where
  present : ∀ f ∈ w.fields, bag.one f.key ≠ none
  scalars : ∀ f ∈ w.fields, listField spec.name f.key = false →
    bag.one f.key = some f.literal.text
  lists : ∀ f ∈ w.fields, listField spec.name f.key = true →
    bag.many f.key = f.literal.entries
  absent : ∀ key, (∀ f ∈ w.fields, f.key ≠ key) → bag.one key = none
  arguments : bag.positional = w.arguments.map Argument.text
  projection : bag.projection = []
  consistency : bag.consistency = .current

/-- The text is read as the values that were written : a bag that holds them is collected, and
the request is that of every bag that holds them. -/
def Denotes : Prop :=
  (∃ bag, collectText w.text = .ok (spec.name, bag) ∧ Passes spec bag ∧ w.Holds bag) ∧
    ∀ bag, Passes spec bag → w.Holds bag → parseQuery w.text = requestOf spec.name bag

/-- Every literal denotes its value by itself. -/
structure Exact : Prop where
  fields : ∀ f ∈ w.fields, f.literal.Exact spec.name f.key
  arguments : ∀ a ∈ w.arguments, a.Exact

variable {w} {f g : FieldBag}

/-- Bags that hold the same written values read the same. -/
theorem Holds.sameReadings (hf : w.Holds f) (hg : w.Holds g) : SameReadings spec.name f g := by
  have hcase : ∀ key, (∃ item ∈ w.fields, item.key = key) ∨ ∀ item ∈ w.fields, item.key ≠ key :=
    fun key => by
      by_cases h : ∃ item ∈ w.fields, item.key = key
      · exact Or.inl h
      · exact Or.inr fun item hitem heq => h ⟨item, hitem, heq⟩
  refine ⟨fun key => ?_, fun key hkey => ?_, fun key hkey => ?_,
    hf.arguments.trans hg.arguments.symm, hf.projection.trans hg.projection.symm,
    hf.consistency.trans hg.consistency.symm⟩
  · rcases hcase key with ⟨item, hitem, rfl⟩ | habsent
    · exact iff_of_false (hf.present item hitem) (hg.present item hitem)
    · exact iff_of_true (hf.absent key habsent) (hg.absent key habsent)
  · rcases hcase key with ⟨item, hitem, rfl⟩ | habsent
    · rw [hf.scalars item hitem hkey, hg.scalars item hitem hkey]
    · rw [hf.absent key habsent, hg.absent key habsent]
  · rcases hcase key with ⟨item, hitem, rfl⟩ | habsent
    · rw [hf.lists item hitem hkey, hg.lists item hitem hkey]
    · rw [many_of_one_eq_none (hf.absent key habsent), many_of_one_eq_none (hg.absent key habsent)]

variable (w)

theorem specOf_name (w : Written spec) : queryCapabilitySpec spec.name = some spec := by
  have hall : ∀ spec ∈ queryCapabilitySpecs, queryCapabilitySpec spec.name = some spec := by
    decide +kernel
  exact hall spec w.known

/-- The bag of a written query holds its values exactly when the literals are exact. -/
theorem holds_bag_iff (hlines : ∀ a ∈ w.arguments, '\n' ∉ a.text) : w.Holds w.bag ↔ w.Exact := by
  have harguments : w.bag.positional = w.arguments.map Argument.text ↔
      ∀ a ∈ w.arguments, a.Exact := by
    rw [w.bag_arguments, filterMap_eq_map_iff_forall_eq_some]
    exact forall₂_congr fun a ha => tokenStatement_argument_iff a (hlines a ha)
  have hread : (∀ a ∈ w.arguments, a.Exact) → w.bag.values = fieldValues w.fields := fun h =>
    w.bag_values fun a ha => (tokenStatement_argument_iff a (hlines a ha)).mpr (h a ha)
  obtain ⟨hprojection, hconsistency⟩ := collectTokens_frame w.tokens {}
  constructor
  · intro h
    have hexact := harguments.mp h.arguments
    refine ⟨fun f hf => ?_, hexact⟩
    cases hlist : listField spec.name f.key with
    | false =>
      have hone := h.scalars f hf hlist
      rw [one_of_fieldValues (hread hexact) w.distinct hf, Option.some.injEq] at hone
      exact (scalarValue_render_iff hlist f.fits).mp hone
    | true =>
      have hmany := h.lists f hf hlist
      rw [many_of_fieldValues (hread hexact) w.distinct hf] at hmany
      exact (listValues_render_iff hlist f.fits).mp hmany
  · intro h
    have hvalues := hread h.arguments
    refine ⟨fun f hf => ?_, fun f hf hlist => ?_, fun f hf hlist => ?_,
      fun key hkey => one_absent hvalues hkey, harguments.mpr h.arguments, hprojection,
      hconsistency⟩
    · rw [one_of_fieldValues hvalues w.distinct hf]
      exact Option.some_ne_none _
    · rw [one_of_fieldValues hvalues w.distinct hf,
        (scalarValue_render_iff hlist f.fits).mpr (h.fields f hf)]
    · rw [many_of_fieldValues hvalues w.distinct hf]
      exact (listValues_render_iff hlist f.fits).mpr (h.fields f hf)

end Written

theorem Argument.newline_notMem {a : Argument} (h : a.Exact) : '\n' ∉ a.text := by
  cases a with
  | quoted v => exact h.2
  | bare v _ hplain _ => exact plainChar_of_mem hplain (by decide)

/-- A literal has both brackets or none. -/
theorem brackets_literal {op key : String} {literal : Literal} (h : literal.Fits op key) :
    decide (literal.render.head? = some '[') = decide (literal.render.getLast? = some ']') := by
  cases literal with
  | quoted v =>
    rw [Literal.render, quote, ← cons_append, getLast?_concat]
    rfl
  | bare v =>
    have hopen : v.head? ≠ some '[' := fun heq =>
      plainChar_of_mem h (by decide) (mem_of_mem_head? heq)
    have hclose : v.getLast? ≠ some ']' := fun heq =>
      plainChar_of_mem h (by decide) (mem_of_mem_getLast? heq)
    rw [Literal.render, decide_eq_false hopen, decide_eq_false hclose]
  | list vs =>
    rw [Literal.render, bracketed, ← cons_append, getLast?_concat]
    rfl

theorem validateValues_fieldValues {spec : QueryCapabilitySpec} :
    ∀ {fields : List (WrittenField spec)}, (fields.map WrittenField.key).Nodup →
      validateValues spec.name spec (fieldValues fields) = .ok ()
  | [], _ => rfl
  | f :: fields, hnodup => by
    rw [map_cons, nodup_cons] at hnodup
    have ih := validateValues_fieldValues hnodup.2
    have hnone : (fieldValues fields).find? (fun entry =>
        entry.1 = f.key ∧ scalarValue entry.2 ≠ scalarValue f.literal.render) = none := by
      rw [find?_eq_none]
      rintro entry hentry heq
      obtain ⟨g, hg, rfl⟩ := mem_map.mp hentry
      exact hnodup.1 (mem_map.mpr ⟨g, hg, (of_decide_eq_true heq).1⟩)
    rw [fieldValues, map_cons, ← fieldValues, validateValues, if_neg (by simp [f.allowed])]
    split
    · rw [if_neg (not_not.2 (brackets_literal f.fits)), ih]
    · rw [hnone]
      exact ih

namespace Written

variable {spec : QueryCapabilitySpec} (w : Written spec)

theorem passes_bag (hvalues : w.bag.values = fieldValues w.fields) : Passes spec w.bag := by
  refine ⟨?_, ?_⟩
  · have hnormal : w.bag.values.map (fun entry => (normalizeKey spec entry.1, entry.2)) =
        w.bag.values := by
      rw [hvalues, fieldValues, map_map]
      exact map_congr_left fun f _ => by rw [Function.comp_apply, (f.plain w.known).1]
    rw [normalizeFieldAliases, hnormal]
  · rw [hvalues]
    exact validateValues_fieldValues w.distinct

theorem exact_of_denotes (h : w.Denotes) : w.Exact := by
  obtain ⟨⟨bag, hcollect, -, hholds⟩, -⟩ := h
  have hlines : ∀ a ∈ w.arguments, '\n' ∉ a.text := fun a ha hmem =>
    w.collectText_newline ha hmem _ hcollect
  rw [w.collectText_text hlines, Except.ok.injEq, Prod.mk.injEq] at hcollect
  rw [← hcollect.2] at hholds
  exact (w.holds_bag_iff hlines).mp hholds

theorem denotes_of_exact (h : w.Exact) : w.Denotes := by
  have hlines : ∀ a ∈ w.arguments, '\n' ∉ a.text := fun a ha =>
    Argument.newline_notMem (h.arguments a ha)
  have hholds := (w.holds_bag_iff hlines).mpr h
  have hpasses := w.passes_bag (w.bag_values fun a ha =>
    (tokenStatement_argument_iff a (hlines a ha)).mpr (h.arguments a ha))
  refine ⟨⟨w.bag, w.collectText_text hlines, hpasses, hholds⟩, fun bag hbag hbag' => ?_⟩
  rw [parseQuery, w.collectText_text hlines, ByteCodec.ok_bind]
  exact (hholds.sameReadings hbag').requestOf (specOf_name w) hpasses hbag

/-- A written query denotes its values exactly when each of its literals does. -/
theorem denotes_iff_exact : w.Denotes ↔ w.Exact := ⟨w.exact_of_denotes, w.denotes_of_exact⟩

end Written

/-- The empty blanks, and one blank. -/
def noBlanks : Blanks := ⟨[], by simp⟩

def oneBlank : Gap := ⟨⟨[' '], List.forall_mem_singleton.mpr (by decide)⟩, by simp⟩

/-- The query `symbol.search path:["a\\b"]` for the path `a\b`. -/
def escapedPath : Written (queryCapabilitySpecs.get ⟨3, by decide⟩) where
  known := List.get_mem _ _
  before := noBlanks
  after := noBlanks
  items := [(oneBlank, .field ⟨"path", .list ["a\\b".toList], by decide +kernel,
    ⟨by decide +kernel, by simp only [String.reduceToList]; decide⟩⟩)]
  further := []
  distinct := by simp only [String.reduceToList]; decide

/-- An escape is lost in a list, a quoted argument with a colon is refused, an escape is lost in
an unquoted value, and a list of inline rules becomes one rule. -/
theorem literals_not_denoted :
    (escapedPath.text = "symbol.search path:[\"a\\\\b\"]".toList ∧ ¬ escapedPath.Denotes) ∧
    parseQuery "symbol.search path:[\"a\\\\b\"]".toList =
      .ok ⟨.symbolSearch ⟨none, none, ["ab".toList], [], [], [], none, false, false, 0, []⟩,
        .current, {}⟩ ∧ (parseQuery "symbol.search \"a:b\"".toList).isOk = false ∧
    parseQuery "symbol.search name:C:\\dir".toList =
      .ok ⟨.symbolSearch ⟨none, none, [], [], [], [], some "C:dir".toList, false, false, 0, []⟩,
        .current, {}⟩ ∧ parseQuery "rules.check inline_rules:[\"a\",\"b\"]".toList =
      .ok ⟨.rulesCheck ⟨["[\"a\",\"b\"]".toList], none, none, none, [], true⟩, .current, {}⟩ := by
  refine ⟨⟨by simp only [String.reduceToList]; decide, fun h => ?_⟩,
    by simp only [String.reduceToList]; decide, by simp only [String.reduceToList]; decide,
    by simp only [String.reduceToList]; decide, by simp only [String.reduceToList]; decide⟩
  have hpath := (escapedPath.exact_of_denotes h).fields _ mem_cons_self
  exact (hpath.2 _ mem_cons_self).1 (by simp only [String.reduceToList]; decide)

end CodeMoniker.Query
