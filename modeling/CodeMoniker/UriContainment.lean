import CodeMoniker.IndexedPredicates
import CodeMoniker.UriGrammar

/-!
# Containment of identities

The symbol graph decides by text which symbols belong to its focus : the identity of the
symbol is the identity of the focus, or goes on with a `/`. A quoted component may hold a `/`
and a raw one may not, and how far a component reaches in a text is determined by what is read
(`Spells.unique`). A text that goes on at a boundary therefore spells the same components
first (`SpellsSegments.isPrefix`), and the test selects exactly the descendants of the focus
(`toUri_extends_iff_isAncestorOf`).
-/

namespace CodeMoniker

open List ByteCodec

/-! ## The boundary of the symbol graph -/

inductive UnitBoundary
  | identityPrefix (focus : String) (slot : ℕ)
  | file (source slot : ℕ)

/-- Text is compared by its bytes. -/
def UnitBoundary.contains (boundary : UnitBoundary) (symbol : SymbolRecord) : Bool :=
  match boundary with
  | .identityPrefix focus _ =>
    let text := Utf8.encode focus.toList
    let identity := Utf8.encode symbol.identity.toList
    identity == text ||
      (decide (text.length < identity.length) && text.isPrefixOf identity
        && identity[text.length]? == some slash)
  | .file source _ => symbol.source == source

/-! ## A text spells one list of components -/

theorem Spells.unique {text text' v v' tail tail' : Bytes} (h : Spells text v) (hb : Boundary tail)
    (h' : Spells text' v') (hb' : Boundary tail') (heq : text ++ tail = text' ++ tail') :
    v = v' ∧ tail = tail' := by
  have hread := (readName_eq_ok_iff (At.zero (text ++ tail))).mpr ⟨text, tail, rfl, h, hb, rfl⟩
  have hread' := (readName_eq_ok_iff (At.zero (text ++ tail))).mpr
    ⟨text', tail', heq, h', hb', rfl⟩
  obtain ⟨hv, hlength⟩ := Prod.mk.inj (Except.ok.inj (hread.symm.trans hread'))
  exact ⟨hv, (append_inj heq (by omega)).2⟩

theorem Boundary.append {rest tail : Bytes} (hrest : Boundary rest) (htail : Boundary tail) :
    Boundary (rest ++ tail) := by
  rcases hrest with rfl | hslash
  · exact htail
  · refine Or.inr ?_
    rw [head?_append, hslash]
    rfl

/-- The first `:` ends the kind. -/
theorem kind_unique {kind kind' rest rest' : Bytes} (h : isUriKind kind) (h' : isUriKind kind')
    (heq : kind ++ colon :: rest = kind' ++ colon :: rest') : kind = kind' ∧ rest = rest' := by
  have htake : ∀ {k r : Bytes}, isUriKind k → (k ++ colon :: r).takeWhile (· != colon) = k := by
    intro k r hk
    rw [takeWhile_append_of_pos fun b hb => by
      simpa using ((bounds_of_isUriKind hk) b hb).2.1]
    simp
  have hkind : kind = kind' := by rw [← @htake kind rest h, heq, htake h']
  subst hkind
  exact ⟨rfl, (cons.inj (append_cancel_left heq)).2⟩

/-- A text that goes on at a boundary spells the same segments first. -/
theorem SpellsSegments.isPrefix {text : Bytes} {segs : List Segment} (h : SpellsSegments text segs) :
    ∀ {text' tail : Bytes} {segs' : List Segment}, SpellsSegments text' segs' → Boundary tail →
      text ++ tail = text' → segs <+: segs' := by
  induction h with
  | nil => exact fun _ _ _ => List.nil_prefix
  | @cons s text rest segs kind name hrest ih =>
    intro text' tail segs' h' hb heq
    cases h' with
    | nil => cases heq
    | @cons s' text' rest' segs' kind' name' hrest' =>
      have hlayout : s.kind ++ colon :: (text ++ (rest ++ tail)) =
          s'.kind ++ colon :: (text' ++ rest') := by
        simpa using heq
      obtain ⟨hkind, hname⟩ := kind_unique kind kind' hlayout
      obtain ⟨hvalue, htail⟩ := name.unique (hrest.boundary.append hb) name' hrest'.boundary hname
      obtain rfl : s = s' := by
        cases s
        cases s'
        simp_all
      exact cons_prefix_cons.mpr ⟨rfl, ih hrest' hb htail⟩

/-- The text of a moniker goes on at a boundary in the texts of its descendants only. -/
theorem SpellsUri.isPrefix {config : UriConfig} {uri uri' : List Char} {project project' tail : Bytes}
    {segs segs' : List Segment} (h : SpellsUri config uri project segs)
    (h' : SpellsUri config uri' project' segs') (hb : Boundary tail)
    (heq : Utf8.encode uri ++ tail = Utf8.encode uri') : project = project' ∧ segs <+: segs' := by
  obtain ⟨rest, text, stext, rfl, henc, hproject, hsegs⟩ := h.text
  obtain ⟨rest', text', stext', rfl, henc', hproject', hsegs'⟩ := h'.text
  rw [Utf8.encode_append, Utf8.encode_append, henc, henc', append_assoc,
    append_right_inj, append_assoc] at heq
  obtain ⟨rfl, hstext⟩ := hproject.unique (hsegs.boundary.append hb) hproject' hsegs'.boundary heq
  exact ⟨rfl, hsegs.isPrefix hsegs' hb hstext⟩

/-! ## The text of a descendant goes on -/

theorem exists_writeSegments_cons {ε : Type} {s : Segment} {segs : List Segment}
    (hall : ∀ t ∈ s :: segs, t.Admitted) : ∃ t, ∀ out,
      (s :: segs).foldlM writeSegment out = (.ok (out ++ '/' :: t) : Except (Stop ε) _) := by
  have hs := hall s mem_cons_self
  obtain ⟨kind, -, hkind⟩ := @expectUtf8_of_valid ε _ hs.kindUtf8
  obtain ⟨name, hname, -⟩ := @exists_writeName ε _ hs.nameUtf8
  obtain ⟨rest, hrest, -⟩ := @exists_writeSegments ε segs fun t ht =>
    hall t (mem_cons_of_mem s ht)
  refine ⟨kind ++ ':' :: (name ++ rest), fun out => ?_⟩
  rw [foldlM_cons, writeSegment, hkind, ok_bind, hname, ok_bind, hrest]
  simp

/-- How `to_uri` writes a moniker and one with more segments. -/
theorem toUri_append {ε : Type} {project : Bytes} {segs more : List Segment} {config : UriConfig}
    (hp : AdmittedProject project) (hs : ∀ s ∈ segs, s.Admitted)
    (hs' : ∀ s ∈ segs ++ more, s.Admitted) : ∃ uri tail,
      toUri (.ofParts project segs hp hs) config = (.ok uri : Except (Stop ε) _) ∧
      toUri (.ofParts project (segs ++ more) hp hs') config =
        (.ok (uri ++ tail) : Except (Stop ε) _) ∧ (tail = [] ∨ ∃ t, tail = '/' :: t) := by
  obtain ⟨t, ht, -⟩ := @exists_writeName ε _ hp.utf8
  obtain ⟨r, hr, -⟩ := @exists_writeSegments ε segs hs
  obtain ⟨hproject, hsegments⟩ := @view_parts ε project segs hs
  obtain ⟨hproject', hsegments'⟩ := @view_parts ε project (segs ++ more) hs'
  have hmore : ∃ tail, (∀ out, more.foldlM writeSegment out = (.ok (out ++ tail) : Except (Stop ε) _)) ∧
      (tail = [] ∨ ∃ t, tail = '/' :: t) := by
    cases more with
    | nil => exact ⟨[], fun out => by simp, Or.inl rfl⟩
    | cons s more =>
      obtain ⟨t, ht⟩ := @exists_writeSegments_cons ε s more fun t ht =>
        hs' t (mem_append_right segs ht)
      exact ⟨'/' :: t, ht, Or.inr ⟨t, rfl⟩⟩
  obtain ⟨tail, htail, hslash⟩ := hmore
  refine ⟨config.scheme ++ t ++ r, tail, ?_, ?_, hslash⟩
  · simp only [toUri, Moniker.asView_ofParts, ok_bind, hproject, ht, hsegments, hr]
  · simp only [toUri, Moniker.asView_ofParts, ok_bind, hproject', ht, hsegments', foldlM_append,
      hr, htail]

/-! ## Containment is ancestry -/

/-- The test of the symbol graph is that the text goes on at a boundary. -/
theorem contains_identityPrefix_iff {uri uri' : List Char} {slot : ℕ} {symbol : SymbolRecord} :
    (UnitBoundary.identityPrefix (String.ofList uri) slot).contains
        { symbol with identity := String.ofList uri' } ↔
      ∃ tail, Utf8.encode uri ++ tail = Utf8.encode uri' ∧ Boundary tail := by
  simp only [UnitBoundary.contains, String.toList_ofList, Bool.or_eq_true, beq_iff_eq,
    Bool.and_eq_true, decide_eq_true_eq, List.isPrefixOf_iff_prefix]
  constructor
  · rintro (heq | ⟨⟨-, tail, htail⟩, hslash⟩)
    · exact ⟨[], by rw [heq, append_nil], Or.inl rfl⟩
    · refine ⟨tail, htail, Or.inr ?_⟩
      rw [← htail, getElem?_append_right le_rfl, Nat.sub_self] at hslash
      rw [head?_eq_getElem?, hslash]
  · rintro ⟨tail, heq, rfl | hslash⟩
    · exact Or.inl (by rw [← heq, append_nil])
    · obtain ⟨more, rfl⟩ : ∃ more, tail = slash :: more := by
        cases tail with
        | nil => cases hslash
        | cons c more => exact ⟨more, by rw [Option.some.inj hslash]⟩
      refine Or.inr ⟨⟨?_, _, heq⟩, ?_⟩
      · rw [← heq, length_append, length_cons]
        omega
      · rw [← heq, getElem?_append_right le_rfl, Nat.sub_self]
        rfl

theorem encode_extends {uri uri' : List Char} (h : uri' = uri ∨ uri ++ ['/'] <+: uri') :
    ∃ tail, Utf8.encode uri ++ tail = Utf8.encode uri' ∧ Boundary tail := by
  rcases h with rfl | ⟨more, rfl⟩
  · exact ⟨[], append_nil _, Or.inl rfl⟩
  · refine ⟨slash :: Utf8.encode more, ?_, Or.inr rfl⟩
    rw [append_assoc, Utf8.encode_append, Utf8.encode_append]
    rfl

/-- For every scheme, the text of `b` is the text of `a` or goes on with a `/` exactly when `a` is
an ancestor of `b`, and the test of the symbol graph agrees. -/
theorem toUri_extends_iff_isAncestorOf (config : UriConfig) (a b : Moniker) :
    ∃ uri uri', toUri a config = (.ok uri : Except (Stop Empty) _) ∧
      toUri b config = (.ok uri' : Except (Stop Empty) _) ∧
      ((uri' = uri ∨ uri ++ ['/'] <+: uri') ↔ a.isAncestorOf b) ∧
      ∀ (symbol : SymbolRecord) (slot : ℕ),
        (UnitBoundary.identityPrefix (String.ofList uri) slot).contains
          { symbol with identity := String.ofList uri' } = a.isAncestorOf b := by
  obtain ⟨uri, project, segs, hto, hspells, hbytes⟩ := @exists_toUri Empty a config
  obtain ⟨uri', project', segs', hto', hspells', hbytes'⟩ := @exists_toUri Empty b config
  obtain ⟨hp, hs⟩ := hspells.admitted
  obtain ⟨hp', hs'⟩ := hspells'.admitted
  obtain rfl : a = .ofParts project segs hp hs := Moniker.ext_bytes hbytes
  obtain rfl : b = .ofParts project' segs' hp' hs' := Moniker.ext_bytes hbytes'
  have hancestor : (∃ tail, Utf8.encode uri ++ tail = Utf8.encode uri' ∧ Boundary tail) →
      (Moniker.ofParts project segs hp hs).isAncestorOf (.ofParts project' segs' hp' hs') := by
    rintro ⟨tail, heq, hb⟩
    exact (isAncestorOf_ofParts hp hs hp' hs').mpr (hspells.isPrefix hspells' hb heq)
  have hextends : (Moniker.ofParts project segs hp hs).isAncestorOf (.ofParts project' segs' hp' hs') →
      uri' = uri ∨ uri ++ ['/'] <+: uri' := by
    intro h
    obtain ⟨rfl, more, rfl⟩ := (isAncestorOf_ofParts hp hs hp' hs').mp h
    obtain ⟨text, tail, htext, htext', htail⟩ := @toUri_append Empty project segs more config hp hs hs'
    obtain rfl : uri = text := Except.ok.inj (hto.symm.trans htext)
    obtain rfl : uri' = uri ++ tail := Except.ok.inj (hto'.symm.trans htext')
    rcases htail with rfl | ⟨t, rfl⟩
    · exact Or.inl (append_nil _)
    · exact Or.inr ⟨t, by simp⟩
  refine ⟨uri, uri', hto, hto', ⟨fun h => hancestor (encode_extends h), hextends⟩, fun symbol slot => ?_⟩
  rw [Bool.eq_iff_iff, contains_identityPrefix_iff]
  exact ⟨hancestor, fun h => encode_extends (hextends h)⟩

end CodeMoniker
