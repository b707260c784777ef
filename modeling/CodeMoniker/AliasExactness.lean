import CodeMoniker.AliasResolution
import CodeMoniker.RefCycles

/-!
# When alias substitution is exact

An alias table is meant to be expanded by replacing each `$name` with the parenthesised expansion
of `name` and leaving every other character as it is (`exactExpansion`). Resolution fails exactly
for a cycle or an open reference, whatever the order of the table, and no reference is left in a
result. The characters that are not part of a reference are however copied byte by byte, each as
the character of its value. A byte from 128 on becomes two, so the result is the exact one for
ASCII texts only (`exactSubstitution_iff`).
-/

namespace CodeMoniker

open List ByteCodec RefText

/-! ## The exact expansion -/

/-- Every character as it stands, an expansion in parentheses. -/
def exactOutput : Output UInt8 UInt8 where
  lit b := [b]
  wrap v := byteString "(" ++ v ++ byteString ")"

noncomputable def exactExpansion (src : Aliases) (name : Bytes) : Option Bytes :=
  expansion aliasGrammar exactOutput (fun n => src.lookup n) name

noncomputable def exactText (src : Aliases) (text : Bytes) : Option Bytes :=
  expandText aliasGrammar exactOutput (fun n => src.lookup n) text

/-- An alias reaches itself through references. -/
def Cyclic (src : Aliases) : Prop :=
  ∃ name, Relation.TransGen (Refers aliasGrammar fun n => src.lookup n) name name

/-- A body refers to a name that is not defined. -/
def Dangling (src : Aliases) : Prop :=
  ∃ name body, src.lookup name = some body ∧ ∃ n ∈ names aliasGrammar body, n ∉ src

def Ascii (text : Bytes) : Prop := ∀ b ∈ text, b.toNat < 128

/-! ## The copied characters -/

theorem wrap_aliasOutput : aliasOutput.wrap = exactOutput.wrap := rfl

theorem toNat_ofNat_byte (b : UInt8) : (Char.ofNat b.toNat).toNat = b.toNat := by
  have hvalid : b.toNat.isValidChar := Or.inl (by have := b.toNat_lt; omega)
  simp [Char.ofNat, hvalid, Char.toNat, Char.ofNatAux]

theorem aliasOutput_lit_of_lt {b : UInt8} (h : b.toNat < 128) : aliasOutput.lit b = [b] := by
  have hchar := toNat_ofNat_byte b
  have hlit : aliasOutput.lit b = [UInt8.ofNat (Char.ofNat b.toNat).toNat] :=
    Utf8.encodeChar_ascii (by omega)
  rw [hlit, hchar, UInt8.ofNat_toNat]

theorem le_of_mem_aliasOutput_lit {b c : UInt8} (h : 128 ≤ b.toNat) (hc : c ∈ aliasOutput.lit b) :
    128 ≤ c.toNat := by
  have hchar := toNat_ofNat_byte b
  exact Utf8.le_of_mem_encodeChar (by omega) c hc

theorem length_aliasOutput_lit {b : UInt8} (h : 128 ≤ b.toNat) :
    1 < (aliasOutput.lit b).length := by
  have hchar : (Char.ofNat b.toNat).val.toNat = b.toNat := toNat_ofNat_byte b
  have hlength : (aliasOutput.lit b).length = (Char.ofNat b.toNat).utf8Size :=
    String.length_utf8EncodeChar _
  rw [hlength, Char.utf8Size]
  split_ifs with hle
  · have hle' : (Char.ofNat b.toNat).val.toNat ≤ 127 := UInt32.le_iff_toNat_le.mp hle
    omega
  · decide
  · decide
  · decide

theorem length_lit_le (b : UInt8) : (exactOutput.lit b).length ≤ (aliasOutput.lit b).length := by
  rcases Nat.lt_or_ge b.toNat 128 with h | h
  · rw [aliasOutput_lit_of_lt h]
    rfl
  · exact (length_aliasOutput_lit h).le

theorem lt_of_length_lit_eq {b : UInt8}
    (h : (exactOutput.lit b).length = (aliasOutput.lit b).length) : b.toNat < 128 := by
  by_contra hge
  have hlt := length_aliasOutput_lit (Nat.not_lt.mp hge)
  exact absurd h hlt.ne

theorem lt_of_isAliasByte {b : UInt8} (h : isAliasByte b = true) : b.toNat < 128 := by
  simp only [isAliasByte, isAsciiAlphanumeric, isAsciiAlphabetic, Bool.or_eq_true,
    Bool.and_eq_true, decide_eq_true_eq, beq_iff_eq, UInt8.le_iff_toNat_le] at h
  rcases h with (((⟨-, h⟩ | ⟨-, h⟩) | ⟨-, h⟩) | rfl)
  · exact h.trans_lt (by decide)
  · exact h.trans_lt (by decide)
  · exact h.trans_lt (by decide)
  · decide

/-- The bytes of a text that are not ASCII stand outside of its references. -/
theorem ascii_iff {text : Bytes} :
    Ascii text ↔ ∀ b, Token.lit b ∈ scan aliasGrammar text → b.toNat < 128 := by
  have hrender : ∀ b, b ∈ text ↔
      ∃ token ∈ scan aliasGrammar text, b ∈ render aliasGrammar token := by
    intro b
    rw [← mem_flatMap, render_scan]
  constructor
  · intro h b hb
    exact h b ((hrender b).mpr ⟨_, hb, mem_singleton_self b⟩)
  · intro h b hb
    obtain ⟨token, htoken, hmem⟩ := (hrender b).mp hb
    cases token with
    | lit a =>
      rw [mem_singleton.mp hmem]
      exact h a htoken
    | ref name =>
      rcases mem_cons.mp hmem with rfl | hmem
      · decide
      · exact lt_of_isAliasByte ((isName_of_mem_scan aliasGrammar text htoken).2 b hmem)

/-- The copied characters and the parentheses keep sigils from names. -/
theorem separates_aliasOutput : aliasOutput.Separates aliasGrammar where
  sigil := aliasOutput_lit_of_lt (by decide)
  lit := by
    intro b hb hmem
    rcases Nat.lt_or_ge b.toNat 128 with h | h
    · rw [aliasOutput_lit_of_lt h] at hmem
      exact hb (mem_singleton.mp hmem).symm
    · exact absurd (le_of_mem_aliasOutput_lit h hmem) (by decide)
  litPlain := by
    intro b hb
    rcases Nat.lt_or_ge b.toNat 128 with h | h
    · rw [aliasOutput_lit_of_lt h]
      refine ⟨cons_ne_nil b [], fun c hc => ?_⟩
      obtain rfl := Option.some.inj hc
      exact hb
    · refine ⟨String.utf8EncodeChar_ne_nil, fun c hc => ?_⟩
      have hmem := le_of_mem_aliasOutput_lit h (mem_of_mem_head? hc)
      by_contra hname
      have hlt := lt_of_isAliasByte (Bool.not_eq_false _ ▸ hname)
      omega
  wrap := by
    intro v rest hv
    have hplain : StartsPlain aliasGrammar (byteString ")" ++ rest) := by
      intro c hc
      obtain rfl := Option.some.inj hc
      decide
    have hclose : aliasGrammar.sigil ∉ byteString ")" := by decide
    have hopen : aliasGrammar.sigil ∉ byteString "(" := by decide
    rw [aliasOutput, append_assoc, append_assoc, names_append_of_not_mem hopen,
      names_append_of_startsPlain hv hplain, names_append_of_not_mem hclose]
  wrapPlain := by
    intro v
    refine ⟨by simp [aliasOutput, byteString, Utf8.encode], fun c hc => ?_⟩
    obtain rfl := Option.some.inj hc
    decide

/-! ## When resolution fails -/

variable {src : Aliases}

theorem isSome_lookup_iff {name : Bytes} :
    (src.lookup name).isSome ↔ name ∈ src := AList.lookup_isSome

theorem resolves_iff (src : Aliases) :
    (∃ resolved, resolveAliases src = .ok resolved) ↔ ¬(Cyclic src ∨ Dangling src) := by
  have hfin : {n | (src.lookup n).isSome}.Finite := by
    refine src.keys.toFinset.finite_toSet.subset fun n hn => ?_
    rw [Finset.mem_coe, mem_toFinset]
    exact AList.mem_keys.mp (isSome_lookup_iff.mp hn)
  have hexpand := isSome_expansion_iff (g := aliasGrammar) (o := aliasOutput) hfin
  simp only [isSome_lookup_iff] at hexpand
  rw [resolveAliases_ok_iff, not_or]
  refine hexpand.trans (and_congr not_exists.symm ?_)
  constructor
  · rintro h ⟨name, body, hbody, n, hn, hopen⟩
    exact hopen (h name n ⟨body, hbody, hn⟩)
  · rintro h name n ⟨body, hbody, hn⟩
    by_contra hopen
    exact h ⟨name, body, hbody, n, hn, hopen⟩

theorem fails_iff (src : Aliases) :
    (∃ e, resolveAliases src = .error e) ↔ Cyclic src ∨ Dangling src := by
  rw [← not_iff_not, ← resolves_iff]
  cases resolveAliases src with
  | error e => simp
  | ok resolved => simp

/-- A table in another order has the same cycles and open references. -/
theorem resolves_congr {src src' : Aliases} (h : ∀ name, src'.lookup name = src.lookup name) :
    (∃ resolved, resolveAliases src = .ok resolved) ↔
      ∃ resolved, resolveAliases src' = .ok resolved := by
  have hmem : ∀ name, name ∈ src' ↔ name ∈ src := by
    intro name
    rw [← isSome_lookup_iff, ← isSome_lookup_iff, h]
  rw [resolves_iff, resolves_iff, Cyclic, Cyclic, Dangling, Dangling, funext h]
  simp only [hmem, h]

theorem lookup_resolved_congr {src src' resolved resolved' : Aliases}
    (h : ∀ name, src'.lookup name = src.lookup name) (hr : resolveAliases src = .ok resolved)
    (hr' : resolveAliases src' = .ok resolved') (name : Bytes) :
    resolved'.lookup name = resolved.lookup name := by
  rw [resolveAliases_eq_ok hr, resolveAliases_eq_ok hr', aliasExpansion, aliasExpansion, funext h]

theorem substituteAliases_congr {resolved resolved' : Aliases}
    (h : ∀ name, resolved'.lookup name = resolved.lookup name) (expr at_ : Bytes) :
    substituteAliases expr resolved' at_ = substituteAliases expr resolved at_ := by
  have htokens : ∀ tokens, substituteTokens resolved' at_ tokens =
      substituteTokens resolved at_ tokens := by
    intro tokens
    induction tokens with
    | nil => rfl
    | cons token tokens ih =>
      cases token with
      | lit b => rw [substituteTokens, substituteTokens, ih]
      | ref name => rw [substituteTokens, substituteTokens, h, ih]
  exact htokens _

/-! ## Exactness -/

/-- What substitution promises for a table and an expression. -/
structure ExactSubstitution (src : Aliases) (expr : Bytes) : Prop where
  fails_iff : (∃ e, resolveAliases src = .error e) ↔ Cyclic src ∨ Dangling src
  resolves : ∀ resolved, resolveAliases src = .ok resolved →
    ∀ name, resolved.lookup name = exactExpansion src name
  substitutes : ∀ resolved, resolveAliases src = .ok resolved → ∀ at_ out,
    substituteAliases expr resolved at_ = .ok out ↔ exactText src expr = some out
  noReference : ∀ resolved, resolveAliases src = .ok resolved → ∀ at_ out,
    substituteAliases expr resolved at_ = .ok out → names aliasGrammar out = []
  unchanged : ∀ resolved, resolveAliases src = .ok resolved → names aliasGrammar expr = [] →
    ∀ at_, substituteAliases expr resolved at_ = .ok expr
  order : ∀ src' : Aliases, (∀ name, src'.lookup name = src.lookup name) →
    ((∃ resolved, resolveAliases src = .ok resolved) ↔
      ∃ resolved, resolveAliases src' = .ok resolved) ∧
    ∀ resolved resolved', resolveAliases src = .ok resolved → resolveAliases src' = .ok resolved' →
      (∀ name, resolved'.lookup name = resolved.lookup name) ∧
      ∀ at_, substituteAliases expr resolved' at_ = substituteAliases expr resolved at_

/-- The table resolves and every body of it is ASCII : the expansions are exact. -/
theorem aliasExpansion_eq_exact (h : ∀ name body, src.lookup name = some body → Ascii body)
    (name : Bytes) : aliasExpansion src name = exactExpansion src name := by
  refine expansion_congr_output wrap_aliasOutput (fun n body hbody b hb => ?_) name
  exact aliasOutput_lit_of_lt (ascii_iff.mp (h n body hbody) b hb)

theorem aliasText_eq_exact {expr : Bytes}
    (h : ∀ name, aliasExpansion src name = exactExpansion src name) (hexpr : Ascii expr) :
    aliasText src expr = exactText src expr := by
  have hlook : expansion aliasGrammar aliasOutput (fun n => src.lookup n) =
      expansion aliasGrammar exactOutput fun n => src.lookup n := funext h
  rw [aliasText, exactText, expandText, expandText, hlook]
  exact expandTokens_congr_output wrap_aliasOutput fun b hb =>
    aliasOutput_lit_of_lt (ascii_iff.mp hexpr b hb)

/-- A text whose copy has the length of the text has no byte that was copied as two. -/
theorem ascii_of_expandTokens_eq {look : Bytes → Option Bytes} {text out : Bytes}
    (h : expandTokens aliasOutput look (scan aliasGrammar text) = some out)
    (hexact : expandTokens exactOutput look (scan aliasGrammar text) = some out) : Ascii text := by
  obtain ⟨-, hall⟩ :=
    length_lit_eq_of_expandTokens wrap_aliasOutput length_lit_le h hexact
  exact ascii_iff.mpr fun b hb => lt_of_length_lit_eq (hall rfl b hb)

/-- A text without references is its own expansion. -/
theorem expandTokens_exact_of_names {look : Bytes → Option Bytes} {text : Bytes}
    (h : names aliasGrammar text = []) :
    expandTokens exactOutput look (scan aliasGrammar text) = some text := by
  have htokens : ∀ tokens : List (Token UInt8), (∀ name, Token.ref name ∉ tokens) →
      expandTokens exactOutput look tokens = some (tokens.flatMap (render aliasGrammar)) := by
    intro tokens hnone
    induction tokens with
    | nil => rfl
    | cons token tokens ih =>
      cases token with
      | lit b =>
        rw [expandTokens, ih fun name hname => hnone name (mem_cons_of_mem _ hname)]
        rfl
      | ref name => exact absurd mem_cons_self (hnone name)
  rw [htokens _ fun name hname => ?_, render_scan]
  have hmem := (mem_names aliasGrammar).mpr hname
  rw [h] at hmem
  exact absurd hmem not_mem_nil

/-- The tables and expressions that substitution is exact for. -/
def ExactFor (src : Aliases) (expr : Bytes) : Prop :=
  Cyclic src ∨ Dangling src ∨ (∀ name body, src.lookup name = some body → Ascii body) ∧
    (Ascii expr ∨ ∃ name ∈ names aliasGrammar expr, name ∉ src)

theorem exactFor_of_exactSubstitution {expr : Bytes}
    (h : ExactSubstitution src expr) : ExactFor src expr := by
  by_cases hfails : Cyclic src ∨ Dangling src
  · exact hfails.imp_right Or.inl
  obtain ⟨resolved, hr⟩ := (resolves_iff src).mpr hfails
  have heq : ∀ name, aliasExpansion src name = exactExpansion src name := fun name =>
    (resolveAliases_eq_ok hr name).symm.trans (h.resolves resolved hr name)
  have hlook : expansion aliasGrammar aliasOutput (fun n => src.lookup n) =
      expansion aliasGrammar exactOutput fun n => src.lookup n := funext heq
  have hsome := resolveAliases_ok_iff.mp ⟨resolved, hr⟩
  refine Or.inr (Or.inr ⟨fun name body hbody => ?_, ?_⟩)
  · have hmem : name ∈ src := isSome_lookup_iff.mp (by rw [hbody]; rfl)
    obtain ⟨out, hout⟩ := Option.isSome_iff_exists.mp (hsome name hmem)
    have hexact := (heq name).symm.trans hout
    rw [aliasExpansion, expansion_eq, hbody, Option.bind_some, hlook] at hout
    rw [exactExpansion, expansion_eq, hbody, Option.bind_some] at hexact
    exact ascii_of_expandTokens_eq hout hexact
  · by_cases hopen : ∃ name ∈ names aliasGrammar expr, name ∉ src
    · exact Or.inr hopen
    simp only [not_exists, not_and, not_not] at hopen
    have htext : (aliasText src expr).isSome :=
      (isSome_expandText aliasGrammar aliasOutput).mpr fun name hname =>
        hsome name (hopen name hname)
    obtain ⟨out, hout⟩ := Option.isSome_iff_exists.mp htext
    have hexact := (h.substitutes resolved hr [] out).mp ((substituteAliases_eq_ok_iff hr).mpr hout)
    rw [aliasText, expandText, hlook] at hout
    exact Or.inl (ascii_of_expandTokens_eq hout hexact)

/-- An open reference of the expression is an error, whatever the output. -/
theorem expandText_eq_none {expr : Bytes} (o : Output UInt8 UInt8)
    (h : ∃ name ∈ names aliasGrammar expr, name ∉ src) :
    expandText aliasGrammar o (fun n => src.lookup n) expr = none := by
  obtain ⟨name, hname, hopen⟩ := h
  rw [← Option.not_isSome_iff_eq_none, isSome_expandText]
  intro hall
  have hsome := hall name hname
  rw [expansion_eq, AList.lookup_eq_none.mpr hopen] at hsome
  cases hsome

theorem exactSubstitution_of_exactFor {expr : Bytes} (h : ExactFor src expr) :
    ExactSubstitution src expr := by
  have hresolved : ∀ {resolved}, resolveAliases src = .ok resolved →
      (∀ name body, src.lookup name = some body → Ascii body) ∧
        (Ascii expr ∨ ∃ name ∈ names aliasGrammar expr, name ∉ src) := by
    intro resolved hr
    have hnot := (resolves_iff src).mp ⟨resolved, hr⟩
    rw [not_or] at hnot
    exact (h.resolve_left hnot.1).resolve_left hnot.2
  have hsubstitutes : ∀ resolved, resolveAliases src = .ok resolved → ∀ at_ out,
      substituteAliases expr resolved at_ = .ok out ↔ exactText src expr = some out := by
    intro resolved hr at_ out
    obtain ⟨hbodies, hexpr⟩ := hresolved hr
    rw [substituteAliases_eq_ok_iff hr]
    rcases hexpr with hexpr | hopen
    · rw [aliasText_eq_exact (aliasExpansion_eq_exact hbodies) hexpr]
    · rw [aliasText, exactText, expandText_eq_none _ hopen, expandText_eq_none _ hopen]
  refine ⟨fails_iff src, fun resolved hr name => ?_, hsubstitutes,
    fun resolved hr at_ out hout => ?_,
    fun resolved hr hnames at_ => ?_, fun src' hsame => ⟨resolves_congr hsame, ?_⟩⟩
  · rw [resolveAliases_eq_ok hr, aliasExpansion_eq_exact (hresolved hr).1]
  · exact names_expandText separates_aliasOutput ((substituteAliases_eq_ok_iff hr).mp hout)
  · exact (hsubstitutes resolved hr at_ expr).mpr (expandTokens_exact_of_names hnames)
  · intro resolved resolved' hr hr'
    have hlookup := lookup_resolved_congr hsame hr hr'
    exact ⟨hlookup, substituteAliases_congr hlookup expr⟩

/-- Substitution keeps its promise for the tables that do not resolve, and otherwise exactly when
the bodies are ASCII and the expression is, or cannot be expanded. -/
theorem exactSubstitution_iff (src : Aliases) (expr : Bytes) : ExactSubstitution src expr ↔
    Cyclic src ∨ Dangling src ∨ (∀ name body, src.lookup name = some body → Ascii body) ∧
      (Ascii expr ∨ ∃ name ∈ names aliasGrammar expr, name ∉ src) :=
  ⟨exactFor_of_exactSubstitution, exactSubstitution_of_exactFor⟩

/-- `name = 'é'`, without any alias. -/
theorem not_exactSubstitution_accent : ¬ExactSubstitution ∅ (byteString "name = 'é'") := by
  intro h
  have hnames : names aliasGrammar (byteString "name = 'é'") = [] := by
    have hsigil : aliasGrammar.sigil ∉ byteString "name = 'é'" := by decide
    simpa [names, scan] using names_append_of_not_mem hsigil []
  rcases exactFor_of_exactSubstitution h with ⟨name, hcycle⟩ | ⟨name, body, hbody, -⟩ | ⟨-, h⟩
  · obtain ⟨_, ⟨body, hbody, -⟩, -⟩ := Relation.TransGen.head'_iff.mp hcycle
    cases hbody
  · cases hbody
  · rcases h with h | ⟨name, hname, -⟩
    · exact absurd (h 0xc3 (by decide)) (by decide)
    · rw [hnames] at hname
      cases hname

end CodeMoniker
