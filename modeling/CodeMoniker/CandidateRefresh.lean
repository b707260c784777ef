import CodeMoniker.CandidateNames
import CodeMoniker.InventoryRefresh
import CodeMoniker.LastWriter

/-!
# A refreshed candidate catalog and a rebuilt one

A catalog stands for a table of placed definitions : for each file its candidate definitions with
their ordinals (`tableOf`). Locations and name indexes are relations over the whole table (`Holds`),
so taking the definitions of a file out and putting others in leaves what a rebuild gives
(`refreshFiles_tabled`). The index by moniker keeps one definition for each moniker, and a refresh
may end with another one than a rebuild : `refreshFiles_sameLookups_iff` says when they agree.
-/

namespace CodeMoniker

open List Option ByteCodec LastWriter

/-! ## Placed definitions -/

/-- A candidate definition at its place, with its ordinal. -/
structure PlacedDef where
  fileIdx : ℕ
  defIdx : ℕ
  lang : Lang
  record : DefRecord
  symbol : SymbolOrdinal

namespace PlacedDef

def candidate (e : PlacedDef) : LinkageCandidate := .ofDef e.fileIdx e.record

end PlacedDef

/-- The placed definitions from definition `n` of a file on, by the slots of its shard. -/
def placedFrom (fileIdx : ℕ) (lang : Lang) :
    ℕ → List DefRecord → List (Option SymbolOrdinal) → List PlacedDef
  | n, d :: defs, some symbol :: slots =>
    ⟨fileIdx, n, lang, d, symbol⟩ :: placedFrom fileIdx lang (n + 1) defs slots
  | n, _ :: defs, none :: slots => placedFrom fileIdx lang (n + 1) defs slots
  | _, _, _ => []

/-- The slots that the definitions of a file get, from definition `n` on. -/
def slotsFrom (symbols : SymbolOrdinalCatalog) (fileIdx : ℕ) :
    ℕ → List DefRecord → List (Option SymbolOrdinal)
  | _, [] => []
  | n, d :: defs =>
    (if isLinkageCandidateDef d then symbols.ordinal ⟨fileIdx, n⟩ else none) ::
      slotsFrom symbols fileIdx (n + 1) defs

def shardOf (symbols : SymbolOrdinalCatalog) (fileIdx : ℕ) (file : IndexedSourceFile) :
    CandidateFileShard :=
  ⟨file, slotsFrom symbols fileIdx 0 file.graph.defs⟩

def placedIn (symbols : SymbolOrdinalCatalog) (fileIdx : ℕ) (file : IndexedSourceFile) :
    List PlacedDef :=
  placedFrom fileIdx file.lang 0 file.graph.defs (slotsFrom symbols fileIdx 0 file.graph.defs)

/-- The placed definitions of the file at an index. -/
def tableOf (symbols : SymbolOrdinalCatalog) (files : List IndexedSourceFile) (fileIdx : ℕ) :
    List PlacedDef :=
  match files[fileIdx]? with
  | none => []
  | some file => placedIn symbols fileIdx file

theorem length_slotsFrom (symbols : SymbolOrdinalCatalog) (fileIdx : ℕ) :
    ∀ (defs : List DefRecord) (n : ℕ), (slotsFrom symbols fileIdx n defs).length = defs.length
  | [], _ => rfl
  | _ :: defs, n => congrArg (· + 1) (length_slotsFrom symbols fileIdx defs (n + 1))

theorem mem_placedFrom {symbols : SymbolOrdinalCatalog} {fileIdx : ℕ} {lang : Lang}
    {e : PlacedDef} : ∀ {defs : List DefRecord} {n : ℕ},
    e ∈ placedFrom fileIdx lang n defs (slotsFrom symbols fileIdx n defs) ↔
      e.fileIdx = fileIdx ∧ e.lang = lang ∧ n ≤ e.defIdx ∧
        defs[e.defIdx - n]? = some e.record ∧ isLinkageCandidateDef e.record ∧
          symbols.ordinal ⟨fileIdx, e.defIdx⟩ = some e.symbol
  | [], n => by simp [placedFrom]
  | d :: defs, n => by
    have hlater : (n ≤ e.defIdx ∧ (d :: defs)[e.defIdx - n]? = some e.record) ↔
        (e.defIdx = n ∧ d = e.record) ∨
          n + 1 ≤ e.defIdx ∧ defs[e.defIdx - (n + 1)]? = some e.record := by
      rcases Nat.lt_trichotomy e.defIdx n with hlt | heq | hgt
      · omega
      · simp [heq]
      · obtain ⟨k, hk⟩ := Nat.exists_eq_add_of_lt hgt
        have h1 : e.defIdx - n = k + 1 := by omega
        have h2 : e.defIdx - (n + 1) = k := by omega
        have h3 : e.defIdx ≠ n := by omega
        have h4 : n ≤ e.defIdx := by omega
        have h5 : n + 1 ≤ e.defIdx := by omega
        simp [h1, h2, h3, h4, h5]
    have ih := @mem_placedFrom symbols fileIdx lang e defs (n + 1)
    have hsplit : (e.fileIdx = fileIdx ∧ e.lang = lang ∧ n ≤ e.defIdx ∧
        (d :: defs)[e.defIdx - n]? = some e.record ∧ isLinkageCandidateDef e.record ∧
          symbols.ordinal ⟨fileIdx, e.defIdx⟩ = some e.symbol) ↔
        (e.fileIdx = fileIdx ∧ e.lang = lang ∧ (e.defIdx = n ∧ d = e.record) ∧
          isLinkageCandidateDef e.record ∧ symbols.ordinal ⟨fileIdx, e.defIdx⟩ = some e.symbol) ∨
        e ∈ placedFrom fileIdx lang (n + 1) defs (slotsFrom symbols fileIdx (n + 1) defs) := by
      rw [ih]
      tauto
    rw [hsplit]
    obtain ⟨f, k, l, record, symbol⟩ := e
    rw [slotsFrom]
    by_cases hcandidate : isLinkageCandidateDef d = true
    · rw [if_pos hcandidate]
      cases hordinal : symbols.ordinal ⟨fileIdx, n⟩ with
      | none =>
        simp only [placedFrom]
        refine (or_iff_right ?_).symm
        rintro ⟨-, -, ⟨rfl, -⟩, -, hsome⟩
        cases hordinal.symm.trans hsome
      | some o =>
        simp only [placedFrom, mem_cons, PlacedDef.mk.injEq]
        refine or_congr_left ?_
        constructor
        · rintro ⟨rfl, rfl, rfl, rfl, rfl⟩
          exact ⟨rfl, rfl, ⟨rfl, rfl⟩, hcandidate, hordinal⟩
        · rintro ⟨rfl, rfl, ⟨rfl, rfl⟩, -, hsome⟩
          exact ⟨rfl, rfl, rfl, rfl, some.inj (hsome.symm.trans hordinal)⟩
    · rw [if_neg hcandidate]
      simp only [placedFrom]
      refine (or_iff_right ?_).symm
      rintro ⟨-, -, ⟨-, rfl⟩, hrecord, -⟩
      exact hcandidate hrecord

variable {symbols : SymbolOrdinalCatalog}

theorem mem_placedIn {fileIdx : ℕ} {file : IndexedSourceFile}
    {e : PlacedDef} : e ∈ placedIn symbols fileIdx file ↔
      e.fileIdx = fileIdx ∧ e.lang = file.lang ∧ file.graph.defs[e.defIdx]? = some e.record ∧
        isLinkageCandidateDef e.record ∧ symbols.ordinal ⟨fileIdx, e.defIdx⟩ = some e.symbol := by
  rw [placedIn, mem_placedFrom]
  simp

variable {files : List IndexedSourceFile} {f : ℕ} {e : PlacedDef}

theorem mem_tableOf : e ∈ tableOf symbols files f ↔
      ∃ file, files[f]? = some file ∧ e ∈ placedIn symbols f file := by
  unfold tableOf
  cases files[f]? with
  | none => simp
  | some file => simp

/-- The place of a definition is that of its ordinal in the symbol catalog. -/
theorem id_of_mem_tableOf (h : e ∈ tableOf symbols files f) :
    e.fileIdx = f ∧ symbols.id e.symbol = some ⟨f, e.defIdx⟩ := by
  obtain ⟨file, -, he⟩ := mem_tableOf.mp h
  obtain ⟨hfile, -, -, -, hordinal⟩ := mem_placedIn.mp he
  exact ⟨hfile, SymbolOrdinalCatalog.id_eq_some_iff.mpr hordinal⟩

/-- An ordinal stands at one place. -/
theorem tableOf_unique {f f' : ℕ}
    {e e' : PlacedDef} (he : e ∈ tableOf symbols files f) (he' : e' ∈ tableOf symbols files f')
    (heq : e.symbol = e'.symbol) : e = e' := by
  obtain ⟨hf, hid⟩ := id_of_mem_tableOf he
  obtain ⟨hf', hid'⟩ := id_of_mem_tableOf he'
  rw [heq, hid', Option.some.injEq, SymbolId.mk.injEq] at hid
  obtain ⟨rfl, hdef⟩ := hid
  obtain ⟨file, hfile, hplaced⟩ := mem_tableOf.mp he
  obtain ⟨file', hfile', hplaced'⟩ := mem_tableOf.mp he'
  obtain rfl := some.inj (hfile.symm.trans hfile')
  obtain ⟨-, hlang, hrecord, -⟩ := mem_placedIn.mp hplaced
  obtain ⟨-, hlang', hrecord', -⟩ := mem_placedIn.mp hplaced'
  rw [← hdef] at hrecord
  have hsame := some.inj (hrecord.symm.trans hrecord')
  obtain ⟨f₁, d₁, l₁, r₁, o₁⟩ := e
  obtain ⟨f₂, d₂, l₂, r₂, o₂⟩ := e'
  simp only at hf hf' hdef hlang hlang' hsame heq
  rw [hf, hf', hdef, hlang, hlang', hsame, heq]

theorem placedFrom_sorted {fileIdx : ℕ} {lang : Lang} : ∀ {defs : List DefRecord}
    {slots : List (Option SymbolOrdinal)} {n : ℕ},
    (placedFrom fileIdx lang n defs slots).Pairwise (·.defIdx < ·.defIdx) ∧
      ∀ e ∈ placedFrom fileIdx lang n defs slots, n ≤ e.defIdx
  | [], slots, n => by simp [placedFrom]
  | d :: defs, [], n => by simp [placedFrom]
  | d :: defs, none :: slots, n => by
    obtain ⟨hsorted, hle⟩ := @placedFrom_sorted fileIdx lang defs slots (n + 1)
    exact ⟨hsorted, fun e he => Nat.le_of_succ_le (hle e he)⟩
  | d :: defs, some symbol :: slots, n => by
    obtain ⟨hsorted, hle⟩ := @placedFrom_sorted fileIdx lang defs slots (n + 1)
    refine ⟨pairwise_cons.mpr ⟨hle, hsorted⟩, fun e he => ?_⟩
    rcases mem_cons.mp he with rfl | he
    · exact le_rfl
    · exact Nat.le_of_succ_le (hle e he)

/-- The ordinals of a file's definitions differ. -/
theorem tableOf_pairwise (symbols : SymbolOrdinalCatalog) (files : List IndexedSourceFile) (f : ℕ) :
    (tableOf symbols files f).Pairwise (·.symbol ≠ ·.symbol) := by
  have hsorted : (tableOf symbols files f).Pairwise (·.defIdx < ·.defIdx) := by
    unfold tableOf
    cases files[f]? with
    | none => exact List.Pairwise.nil
    | some file => exact placedFrom_sorted.1
  refine hsorted.imp_of_mem fun {e e'} he he' hlt heq => ?_
  rw [tableOf_unique he he' heq] at hlt
  omega

namespace CandidateCatalog

/-! ## Indexing and unindexing as folds -/

/-- The catalog with one placed definition more. -/
def placeDef (c : CandidateCatalog) (e : PlacedDef) : CandidateCatalog :=
  c.place e.fileIdx e.lang e.defIdx e.record e.symbol

/-- The catalog with one placed definition less. -/
def unplaceDef (c : CandidateCatalog) (e : PlacedDef) : CandidateCatalog :=
  { c with
    locations := c.locations.erase e.symbol
    indexes := c.indexes.removeCandidate e.lang e.symbol e.candidate }

@[simp] theorem symbols_placeDef (c : CandidateCatalog) (e : PlacedDef) :
    (c.placeDef e).symbols = c.symbols := rfl

theorem foldl_placeDef_frame : ∀ (es : List PlacedDef) (c : CandidateCatalog),
    (es.foldl placeDef c).symbols = c.symbols ∧ (es.foldl placeDef c).files = c.files
  | [], _ => ⟨rfl, rfl⟩
  | e :: es, c => foldl_placeDef_frame es (c.placeDef e)

theorem foldl_unplaceDef_frame : ∀ (es : List PlacedDef) (c : CandidateCatalog),
    (es.foldl unplaceDef c).symbols = c.symbols ∧ (es.foldl unplaceDef c).files = c.files
  | [], _ => ⟨rfl, rfl⟩
  | e :: es, c => foldl_unplaceDef_frame es (c.unplaceDef e)

theorem indexDefs_eq (fileIdx : ℕ) (lang : Lang) : ∀ (defs : List DefRecord) (n : ℕ)
    (c : CandidateCatalog) (before : List (Option SymbolOrdinal)), before.length = n →
    indexDefs fileIdx lang n defs (c, before ++ replicate defs.length none) =
      ((placedFrom fileIdx lang n defs (slotsFrom c.symbols fileIdx n defs)).foldl placeDef c,
        before ++ slotsFrom c.symbols fileIdx n defs)
  | [], n, c, before, _ => by simp [indexDefs, placedFrom, slotsFrom]
  | d :: defs, n, c, before, hlen => by
    have hlen' : ∀ slot : Option SymbolOrdinal, (before ++ [slot]).length = n + 1 := by
      intro slot
      rw [length_append, length_singleton, hlen]
    have hskip := indexDefs_eq fileIdx lang defs (n + 1) c (before ++ [none]) (hlen' none)
    rw [append_assoc, append_assoc] at hskip
    rw [indexDefs, slotsFrom, length_cons, replicate_succ]
    by_cases hcandidate : isLinkageCandidateDef d = true
    · rw [if_pos hcandidate, if_pos hcandidate]
      cases hordinal : c.symbols.ordinal ⟨fileIdx, n⟩ with
      | none => exact hskip
      | some symbol =>
        have hset : (before ++ none :: replicate defs.length none).set n (some symbol) =
            (before ++ [some symbol]) ++ replicate defs.length none := by
          rw [set_append_right _ _ (by omega), hlen, Nat.sub_self, set_cons_zero,
            append_assoc, singleton_append]
        have hnext := indexDefs_eq fileIdx lang defs (n + 1)
          (c.placeDef ⟨fileIdx, n, lang, d, symbol⟩) (before ++ [some symbol]) (hlen' _)
        simp only [hset]
        refine hnext.trans ?_
        rw [symbols_placeDef, append_assoc, singleton_append]
        rfl
    · rw [if_neg hcandidate, if_neg hcandidate]
      exact hskip

theorem indexShard_eq (c : CandidateCatalog) (fileIdx : ℕ) (file : IndexedSourceFile) :
    c.indexShard fileIdx file =
      ((placedIn c.symbols fileIdx file).foldl placeDef c, shardOf c.symbols fileIdx file) := by
  have h := indexDefs_eq fileIdx file.lang file.graph.defs 0 c [] rfl
  rw [nil_append, nil_append] at h
  rw [indexShard, CodeGraph.defCount, h]
  rfl

theorem unindexSlots_eq (fileIdx : ℕ) (file : IndexedSourceFile) :
    ∀ (slots : List (Option SymbolOrdinal)) (n : ℕ) (c : CandidateCatalog),
      n + slots.length = file.graph.defs.length → unindexSlots fileIdx file n slots c =
          some ((placedFrom fileIdx file.lang n (file.graph.defs.drop n) slots).foldl unplaceDef c)
  | [], n, c, hlen => by
    have hdrop : file.graph.defs.drop n = [] := drop_eq_nil_of_le (by simpa using hlen.ge)
    rw [hdrop]
    rfl
  | slot :: slots, n, c, hlen => by
    rw [length_cons] at hlen
    have hlt : n < file.graph.defs.length := by omega
    have hdef : file.graph.defAt n = some file.graph.defs[n] := getElem?_eq_getElem hlt
    rw [drop_eq_getElem_cons hlt]
    cases slot with
    | none => exact unindexSlots_eq fileIdx file slots (n + 1) c (by omega)
    | some symbol =>
      rw [unindexSlots, hdef]
      exact unindexSlots_eq fileIdx file slots (n + 1) _ (by omega)

theorem unindexSlots_shardOf (symbols : SymbolOrdinalCatalog) (fileIdx : ℕ)
    (file : IndexedSourceFile) (c : CandidateCatalog) :
    unindexSlots fileIdx file 0 (shardOf symbols fileIdx file).byLocation c =
      some ((placedIn symbols fileIdx file).foldl unplaceDef c) := by
  rw [unindexSlots_eq]
  · rfl
  · exact (Nat.zero_add _).trans (length_slotsFrom symbols fileIdx file.graph.defs 0)

/-! ## Relations over the table -/

/-- Locations and name indexes list the placed definitions of a set. -/
structure Holds (c : CandidateCatalog) (P : Set PlacedDef) : Prop where
  locations : ∀ o place, c.locations.lookup o = some place ↔
    ∃ e ∈ P, e.symbol = o ∧ (e.fileIdx, e.defIdx) = place
  language : NamesListed c.indexes.byLanguageName fun lang key o =>
    ∃ e ∈ P, e.symbol = o ∧ e.candidate.isGlobal = true ∧ e.lang.ecosystem = lang ∧
      key ∈ e.candidate.keys
  source : NamesListed c.indexes.bySourceName fun file key o =>
    ∃ e ∈ P, e.symbol = o ∧ e.fileIdx = file ∧ key ∈ e.candidate.keys

section Holds

variable {c c' : CandidateCatalog} {P Q : Set PlacedDef} {e : PlacedDef}

theorem Holds.congr (h : Holds c P) (hlocations : c'.locations = c.locations)
    (hindexes : c'.indexes = c.indexes) (hPQ : P = Q) : Holds c' Q := by
  subst hPQ
  exact ⟨hlocations ▸ h.locations, hindexes ▸ h.language, hindexes ▸ h.source⟩

theorem Holds.placeDef (h : Holds c P) (hnew : ∀ e' ∈ P, e'.symbol ≠ e.symbol) :
    Holds (c.placeDef e) (insert e P) where
  locations o place := by
    change (c.locations.insert e.symbol (e.fileIdx, e.defIdx)).lookup o = some place ↔ _
    by_cases ho : o = e.symbol
    · subst ho
      rw [AList.lookup_insert, Option.some.injEq]
      constructor
      · exact fun hplace => ⟨e, Set.mem_insert e P, rfl, hplace⟩
      · rintro ⟨e', he', hsymbol, hplace⟩
        rcases Set.mem_insert_iff.mp he' with rfl | he'
        · exact hplace
        · exact absurd hsymbol (hnew e' he')
    · rw [AList.lookup_insert_ne ho, h.locations]
      constructor
      · rintro ⟨e', he', hplace⟩
        exact ⟨e', Set.mem_insert_of_mem e he', hplace⟩
      · rintro ⟨e', he', hsymbol, hplace⟩
        rcases Set.mem_insert_iff.mp he' with rfl | he'
        · exact absurd hsymbol.symm ho
        · exact ⟨e', he', hsymbol, hplace⟩
  language := by
    change NamesListed (if e.candidate.isGlobal then _ else _) _
    split_ifs with hglobal
    · refine (h.language.foldl_insert _ _ _).congr fun lang key o => ?_
      simp only [Set.mem_insert_iff, exists_eq_or_imp]
      rw [or_comm]
      refine or_congr_left ?_
      constructor
      · rintro ⟨rfl, hkey, rfl⟩
        exact ⟨rfl, hglobal, rfl, hkey⟩
      · rintro ⟨rfl, -, rfl, hkey⟩
        exact ⟨rfl, hkey, rfl⟩
    · refine h.language.congr fun lang key o => ?_
      simp only [Set.mem_insert_iff, exists_eq_or_imp]
      refine (or_iff_right ?_).symm
      rintro ⟨-, hglobal', -⟩
      exact hglobal hglobal'
  source := by
    refine (h.source.foldl_insert _ _ _).congr fun file key o => ?_
    simp only [Set.mem_insert_iff, exists_eq_or_imp]
    rw [or_comm]
    refine or_congr_left ?_
    constructor
    · rintro ⟨rfl, hkey, rfl⟩
      exact ⟨rfl, rfl, hkey⟩
    · rintro ⟨rfl, rfl, hkey⟩
      exact ⟨rfl, hkey, rfl⟩

theorem Holds.unplaceDef (h : Holds c P) (honly : ∀ e' ∈ P, e'.symbol = e.symbol → e' = e) :
    Holds (c.unplaceDef e) {e' ∈ P | e'.symbol ≠ e.symbol} where
  locations o place := by
    change (c.locations.erase e.symbol).lookup o = some place ↔ _
    by_cases ho : o = e.symbol
    · subst ho
      rw [AList.lookup_erase]
      refine iff_of_false (fun hnone => nomatch hnone) ?_
      rintro ⟨e', ⟨-, hne⟩, heq, -⟩
      exact hne heq
    · rw [AList.lookup_erase_ne ho, h.locations]
      constructor
      · rintro ⟨e', he', rfl, hplace⟩
        exact ⟨e', ⟨he', ho⟩, rfl, hplace⟩
      · rintro ⟨e', ⟨he', -⟩, hplace⟩
        exact ⟨e', he', hplace⟩
  language := by
    change NamesListed (if e.candidate.isGlobal then _ else _) _
    split_ifs with hglobal
    · refine (h.language.foldl_remove _ _ _).congr fun lang key o => ?_
      constructor
      · rintro ⟨⟨e', he', rfl, hglobal', rfl, hkey⟩, hother⟩
        refine ⟨e', ⟨he', fun heq => hother ?_⟩, rfl, hglobal', rfl, hkey⟩
        obtain rfl := honly e' he' heq
        exact ⟨rfl, hkey, rfl⟩
      · rintro ⟨e', ⟨he', hne⟩, rfl, hrest⟩
        exact ⟨⟨e', he', rfl, hrest⟩, fun hsame => hne hsame.2.2⟩
    · refine h.language.congr fun lang key o => ?_
      constructor
      · rintro ⟨e', he', rfl, hglobal', hrest⟩
        refine ⟨e', ⟨he', fun heq => hglobal ?_⟩, rfl, hglobal', hrest⟩
        obtain rfl := honly e' he' heq
        exact hglobal'
      · rintro ⟨e', ⟨he', -⟩, hrest⟩
        exact ⟨e', he', hrest⟩
  source := by
    refine (h.source.foldl_remove _ _ _).congr fun file key o => ?_
    constructor
    · rintro ⟨⟨e', he', rfl, rfl, hkey⟩, hother⟩
      refine ⟨e', ⟨he', fun heq => hother ?_⟩, rfl, rfl, hkey⟩
      obtain rfl := honly e' he' heq
      exact ⟨rfl, hkey, rfl⟩
    · rintro ⟨e', ⟨he', hne⟩, rfl, hrest⟩
      exact ⟨⟨e', he', rfl, hrest⟩, fun hsame => hne hsame.2.2⟩

theorem Holds.foldl_placeDef : ∀ {es : List PlacedDef} {c : CandidateCatalog} {P : Set PlacedDef},
    Holds c P → (∀ e ∈ es, ∀ e' ∈ P, e'.symbol ≠ e.symbol) → es.Pairwise (·.symbol ≠ ·.symbol) →
      Holds (es.foldl CandidateCatalog.placeDef c) {e | e ∈ P ∨ e ∈ es}
  | [], c, P, h, _, _ => h.congr rfl rfl (by simp)
  | e :: es, c, P, h, hnew, hdistinct => by
    obtain ⟨hhead, htail⟩ := pairwise_cons.mp hdistinct
    have hplaced := h.placeDef (hnew e mem_cons_self)
    have hnew' : ∀ e₁ ∈ es, ∀ e₂ ∈ insert e P, e₂.symbol ≠ e₁.symbol := by
      intro e₁ he₁ e₂ he₂
      rcases Set.mem_insert_iff.mp he₂ with rfl | he₂
      · exact hhead e₁ he₁
      · exact hnew e₁ (mem_cons_of_mem e he₁) e₂ he₂
    refine (hplaced.foldl_placeDef hnew' htail).congr rfl rfl ?_
    ext e'
    simp only [Set.mem_insert_iff, Set.mem_ofPred_eq, mem_cons]
    tauto

theorem Holds.foldl_unplaceDef : ∀ {es : List PlacedDef} {c : CandidateCatalog}
    {P : Set PlacedDef}, Holds c P → (∀ e ∈ es, ∀ e' ∈ P, e'.symbol = e.symbol → e' = e) →
      Holds (es.foldl CandidateCatalog.unplaceDef c) {e' ∈ P | ∀ e ∈ es, e'.symbol ≠ e.symbol}
  | [], c, P, h, _ => h.congr rfl rfl (by simp)
  | e :: es, c, P, h, honly => by
    have hremoved := h.unplaceDef (honly e mem_cons_self)
    have honly' : ∀ e₁ ∈ es, ∀ e₂ ∈ {e' ∈ P | e'.symbol ≠ e.symbol},
        e₂.symbol = e₁.symbol → e₂ = e₁ := fun e₁ he₁ e₂ he₂ =>
      honly e₁ (mem_cons_of_mem e he₁) e₂ he₂.1
    refine (hremoved.foldl_unplaceDef honly').congr rfl rfl ?_
    ext e'
    simp only [Set.mem_ofPred_eq, forall_mem_cons, and_assoc]

end Holds

/-! ## The definition that a moniker names -/

/-- The ordinal of the last definition of a moniker. -/
def lastNamed (moniker : Moniker) : List PlacedDef → Option SymbolOrdinal
  | [] => none
  | e :: es =>
    (lastNamed moniker es).or (if e.record.moniker = moniker then some e.symbol else none)

def named (moniker : Moniker) (es : List PlacedDef) : Set SymbolOrdinal :=
  {o | ∃ e ∈ es, e.record.moniker = moniker ∧ e.symbol = o}

variable {moniker : Moniker}

theorem mem_named_of_lastNamed {o : SymbolOrdinal} : ∀ {es : List PlacedDef},
    lastNamed moniker es = some o → o ∈ named moniker es
  | [], h => by cases h
  | e :: es, h => by
    rw [lastNamed, or_eq_some_iff] at h
    rcases h with h | ⟨-, h⟩
    · obtain ⟨e', he', hnamed⟩ := mem_named_of_lastNamed h
      exact ⟨e', mem_cons_of_mem e he', hnamed⟩
    · split_ifs at h with hmoniker
      exact ⟨e, mem_cons_self, hmoniker, some.inj h⟩

theorem lastNamed_ne_none : ∀ {es : List PlacedDef},
    lastNamed moniker es ≠ none ↔ ∃ e ∈ es, e.record.moniker = moniker
  | [] => by simp [lastNamed]
  | e :: es => by
    rw [lastNamed, ne_eq, or_eq_none_iff, not_and_or, ← ne_eq, lastNamed_ne_none,
      exists_mem_cons_iff, or_comm]
    simp

theorem lookup_foldl_placeDef (moniker : Moniker) : ∀ (es : List PlacedDef) (c : CandidateCatalog),
    (es.foldl placeDef c).indexes.symbolByMoniker moniker =
      (lastNamed moniker es).or (c.indexes.symbolByMoniker moniker)
  | [], _ => rfl
  | e :: es, c => by
    have hplace : (c.placeDef e).indexes.symbolByMoniker moniker =
        (if e.record.moniker = moniker then some e.symbol else none).or
          (c.indexes.symbolByMoniker moniker) := by
      change (c.indexes.byMoniker.insert e.record.moniker e.symbol).lookup moniker = _
      split_ifs with h
      · rw [← h, AList.lookup_insert, some_or]
      · rw [AList.lookup_insert_ne (Ne.symm h), none_or]
        rfl
    rw [foldl_cons, lookup_foldl_placeDef moniker es, hplace, lastNamed, Option.or_assoc]

open Classical in
theorem lookup_foldl_unplaceDef (moniker : Moniker) : ∀ (es : List PlacedDef)
    (c : CandidateCatalog), (es.foldl unplaceDef c).indexes.symbolByMoniker moniker =
      if ∃ o ∈ named moniker es, c.indexes.symbolByMoniker moniker = some o then none
      else c.indexes.symbolByMoniker moniker
  | [], c => by
    rw [if_neg]
    · rfl
    · rintro ⟨o, ⟨e, he, -⟩, -⟩
      cases he
  | e :: es, c => by
    have hremove : (c.unplaceDef e).indexes.symbolByMoniker moniker =
        if e.record.moniker = moniker ∧ c.indexes.symbolByMoniker moniker = some e.symbol then none
        else c.indexes.symbolByMoniker moniker := by
      change (if c.indexes.byMoniker.lookup e.record.moniker = some e.symbol then
        c.indexes.byMoniker.erase e.record.moniker else c.indexes.byMoniker).lookup moniker = _
      by_cases hmoniker : e.record.moniker = moniker
      · subst hmoniker
        split_ifs with h h' h'
        · exact AList.lookup_erase _ _
        · exact absurd ⟨rfl, h⟩ h'
        · exact absurd h'.2 h
        · rfl
      · split_ifs with h h' h'
        · exact absurd h'.1 hmoniker
        · exact AList.lookup_erase_ne (Ne.symm hmoniker)
        · exact absurd h'.1 hmoniker
        · rfl
    have hnamed : ∀ o, o ∈ named moniker (e :: es) ↔
        e.record.moniker = moniker ∧ e.symbol = o ∨ o ∈ named moniker es := fun o =>
      exists_mem_cons_iff _ _ _
    rw [foldl_cons, lookup_foldl_unplaceDef moniker es, hremove]
    by_cases hhead : e.record.moniker = moniker ∧ c.indexes.symbolByMoniker moniker = some e.symbol
    · rw [if_pos hhead, ite_self,
        if_pos ⟨e.symbol, (hnamed _).mpr (Or.inl ⟨hhead.1, rfl⟩), hhead.2⟩]
    · rw [if_neg hhead]
      refine if_congr ⟨?_, ?_⟩ rfl rfl
      · rintro ⟨o, ho, heq⟩
        exact ⟨o, (hnamed o).mpr (Or.inr ho), heq⟩
      · rintro ⟨o, ho, heq⟩
        rcases (hnamed o).mp ho with ⟨hmoniker, rfl⟩ | ho
        · exact absurd ⟨hmoniker, heq⟩ hhead
        · exact ⟨o, ho, heq⟩

/-! ## Refreshes -/

/-- What a catalog is brought in line with. -/
structure Input where
  material : CodeIndexMaterial
  symbols : SymbolOrdinalCatalog

/-- The placed definitions of the file at an index. -/
def Input.table (x : Input) (f : ℕ) : List PlacedDef := tableOf x.symbols x.material.files f

/-- The next material replaces, appends and tombstones files : where the allocation is the same so
is the file. The symbol catalog of the inventory keeps the ordinals of a file that stays, and moves
no ordinal to another file (`SymbolInventory.refresh_ordinals`). -/
structure Follows (old next : Input) (same : ℕ → Bool) : Prop where
  grows : old.material.files.length ≤ next.material.files.length
  shares : ∀ (f : ℕ) (file : IndexedSourceFile), old.material.files[f]? = some file →
    same f = true → next.material.files[f]? = some file
  keeps : ∀ (f : ℕ) (file : IndexedSourceFile), old.material.files[f]? = some file →
    same f = true → ∀ d < file.graph.defs.length,
      next.symbols.ordinal ⟨f, d⟩ = old.symbols.ordinal ⟨f, d⟩
  stays : ∀ o id id', old.symbols.id o = some id → next.symbols.id o = some id' → id.file = id'.file

/-- The refresh puts the file in anew. -/
def Replaced (old : Input) (same : ℕ → Bool) (f : ℕ) : Prop :=
  old.material.files.length ≤ f ∨ same f = false

section Refresh

variable {old next : Input} {same : ℕ → Bool}

theorem slotsFrom_congr {symbols symbols' : SymbolOrdinalCatalog} {f : ℕ} :
    ∀ {defs : List DefRecord} {n : ℕ},
      (∀ d < n + defs.length, symbols.ordinal ⟨f, d⟩ = symbols'.ordinal ⟨f, d⟩) →
        slotsFrom symbols f n defs = slotsFrom symbols' f n defs
  | [], _, _ => rfl
  | d :: defs, n, h => by
    rw [length_cons] at h
    rw [slotsFrom, slotsFrom, h n (by omega), slotsFrom_congr fun d hd => h d (by omega)]

section Stays

variable (h : Follows old next same) {f : ℕ} (hstays : ¬Replaced old same f)

include h hstays

/-- A file that stays keeps its definitions and their ordinals. -/
theorem Follows.exists_file :
    ∃ file, old.material.files[f]? = some file ∧ next.material.files[f]? = some file ∧
      slotsFrom next.symbols f 0 file.graph.defs = slotsFrom old.symbols f 0 file.graph.defs := by
  unfold Replaced at hstays
  rw [not_or, not_le, Bool.not_eq_false] at hstays
  have hfile := getElem?_eq_getElem hstays.1
  exact ⟨_, hfile, h.shares f _ hfile hstays.2,
    slotsFrom_congr fun d hd => h.keeps f _ hfile hstays.2 d (by omega)⟩

theorem Follows.shard_eq :
    (next.material.files[f]?).map (shardOf next.symbols f) =
      (old.material.files[f]?).map (shardOf old.symbols f) := by
  obtain ⟨file, hold, hnext, hslots⟩ := h.exists_file hstays
  rw [hold, hnext, map_some, map_some]
  simp only [shardOf, hslots]

theorem Follows.table_eq : next.table f = old.table f := by
  obtain ⟨file, hold, hnext, hslots⟩ := h.exists_file hstays
  unfold Input.table tableOf
  rw [hold, hnext]
  simp only [placedIn, hslots]

end Stays

/-- An ordinal that both symbol catalogs use stands in one file. -/
theorem Follows.file_eq (h : Follows old next same) {f f' : ℕ} {e e' : PlacedDef}
    (he : e ∈ old.table f) (he' : e' ∈ next.table f') (heq : e.symbol = e'.symbol) : f = f' := by
  obtain ⟨-, hid⟩ := id_of_mem_tableOf he
  obtain ⟨-, hid'⟩ := id_of_mem_tableOf he'
  rw [heq] at hid
  exact h.stays _ _ _ hid hid'

theorem eq_of_mem_named {x : Input} {moniker : Moniker} {f f' : ℕ} {o : SymbolOrdinal}
    (h : o ∈ named moniker (x.table f)) (h' : o ∈ named moniker (x.table f')) : f = f' := by
  obtain ⟨e, he, -, rfl⟩ := h
  obtain ⟨e', he', -, heq⟩ := h'
  have hsame : e = e' := tableOf_unique he he' heq.symm
  rw [← (id_of_mem_tableOf he).1, ← (id_of_mem_tableOf he').1, hsame]

/-- The refresh of the cell for a moniker. -/
def Follows.refresh (h : Follows old next same) (moniker : Moniker) : Refresh SymbolOrdinal where
  changed := Replaced old same
  before f := lastNamed moniker (old.table f)
  after f := lastNamed moniker (next.table f)
  drops f := named moniker (old.table f)
  kept f hstays := by rw [h.table_eq hstays]
  dropped f o ho := mem_named_of_lastNamed ho
  disjoint f f' o ho ho' := eq_of_mem_named ho ho'
  fresh f f' o _ ho ho' := by
    obtain ⟨e, he, -, rfl⟩ := mem_named_of_lastNamed ho
    obtain ⟨e', he', -, heq⟩ := ho'
    exact (h.file_eq he' he heq).symm
  distinct f f' o ho ho' :=
    eq_of_mem_named (mem_named_of_lastNamed ho) (mem_named_of_lastNamed ho')

/-! ## One turn of the loop -/

/-- The definitions while the files below `i` are done. -/
def stageTable (old next : Input) (i f : ℕ) : List PlacedDef :=
  if f < i then next.table f else old.table f

/-- The catalog while the files below `i` are done. -/
structure Stage (h : Follows old next same) (i : ℕ) (c : CandidateCatalog) : Prop where
  symbols : c.symbols = next.symbols
  files : ∀ f, c.files[f]? =
    if f < i then (next.material.files[f]?).map (shardOf next.symbols f)
    else (old.material.files[f]?).map (shardOf old.symbols f)
  holds : Holds c {e | e ∈ stageTable old next i e.fileIdx}
  cell : ∀ moniker, c.indexes.symbolByMoniker moniker =
    (h.refresh moniker).cell next.material.files.length i

variable {i : ℕ} {c : CandidateCatalog}

theorem mem_stageTable_of_lt (hlt : e.fileIdx < i) :
    e ∈ stageTable old next i e.fileIdx ↔ e ∈ next.table e.fileIdx := by
  rw [stageTable, if_pos hlt]

theorem mem_stageTable_of_le (hle : i ≤ e.fileIdx) :
    e ∈ stageTable old next i e.fileIdx ↔ e ∈ old.table e.fileIdx := by
  rw [stageTable, if_neg (by omega)]

theorem fileIdx_of_mem_table {x : Input} {e : PlacedDef} {f : ℕ} (he : e ∈ x.table f) :
    e.fileIdx = f := (id_of_mem_tableOf he).1

/-- Taking the definitions of a file out leaves those of the other files. -/
theorem Follows.holds_unplaced (h : Follows old next same)
    (hholds : Holds c {e | e ∈ stageTable old next i e.fileIdx}) :
    Holds ((old.table i).foldl unplaceDef c)
      {e | e ∈ stageTable old next i e.fileIdx ∧ e.fileIdx ≠ i} := by
  have honly : ∀ e ∈ old.table i, ∀ e' ∈ {e | e ∈ stageTable old next i e.fileIdx},
      e'.symbol = e.symbol → e' = e := by
    intro e he e' he' heq
    rw [Set.mem_ofPred_eq] at he'
    rcases Nat.lt_or_ge e'.fileIdx i with hlt | hge
    · rw [mem_stageTable_of_lt hlt] at he'
      have := h.file_eq he he' heq.symm
      omega
    · rw [mem_stageTable_of_le hge] at he'
      exact tableOf_unique he' he heq
  refine (hholds.foldl_unplaceDef honly).congr rfl rfl ?_
  ext e'
  simp only [Set.mem_ofPred_eq]
  refine and_congr_right fun he' => ⟨fun hne heq => ?_, fun hne e he heq => ?_⟩
  · subst heq
    rw [mem_stageTable_of_le le_rfl] at he'
    exact hne e' he' rfl
  · rw [honly e he e' he' heq] at hne
    exact hne (fileIdx_of_mem_table he)

/-- Putting the new definitions of the file in completes the stage. -/
theorem Follows.holds_placed (h : Follows old next same)
    (hholds : Holds c {e | e ∈ stageTable old next i e.fileIdx ∧ e.fileIdx ≠ i}) :
    Holds ((next.table i).foldl CandidateCatalog.placeDef c)
      {e | e ∈ stageTable old next (i + 1) e.fileIdx} := by
  have hnew : ∀ e ∈ next.table i,
      ∀ e' ∈ {e | e ∈ stageTable old next i e.fileIdx ∧ e.fileIdx ≠ i},
        e'.symbol ≠ e.symbol := by
    rintro e he e' ⟨he', hne⟩ heq
    rcases Nat.lt_or_ge e'.fileIdx i with hlt | hge
    · rw [mem_stageTable_of_lt hlt] at he'
      have hsame : e' = e := tableOf_unique he' he heq
      rw [hsame] at hne
      exact hne (fileIdx_of_mem_table he)
    · rw [mem_stageTable_of_le hge] at he'
      exact hne (h.file_eq he' he heq)
  refine (hholds.foldl_placeDef hnew (tableOf_pairwise _ _ i)).congr rfl rfl ?_
  ext e
  simp only [Set.mem_ofPred_eq]
  rcases Nat.lt_trichotomy e.fileIdx i with hlt | heq | hgt
  · have hout : e ∉ next.table i := fun he => by
      have := fileIdx_of_mem_table he
      omega
    rw [mem_stageTable_of_lt hlt, mem_stageTable_of_lt (by omega)]
    simp [hout, hlt.ne]
  · rw [mem_stageTable_of_lt (by omega : e.fileIdx < i + 1), heq]
    simp
  · have hout : e ∉ next.table i := fun he => by
      have := fileIdx_of_mem_table he
      omega
    rw [mem_stageTable_of_le (by omega : i ≤ e.fileIdx), mem_stageTable_of_le (by omega)]
    simp [hout, hgt.ne']

section Stage

variable {h : Follows old next same} {file : IndexedSourceFile}

/-- The cell of a file that is put in, after its old definitions were taken out. -/
theorem cell_succ_of_replaced (hreplaced : Replaced old same i)
    (hcell : ∀ moniker, c.indexes.symbolByMoniker moniker =
      (h.refresh moniker).cell next.material.files.length i) (moniker : Moniker) :
    ((next.table i).foldl placeDef ((old.table i).foldl unplaceDef c)).indexes.symbolByMoniker
      moniker = (h.refresh moniker).cell next.material.files.length (i + 1) := by
  classical
  rw [lookup_foldl_placeDef, lookup_foldl_unplaceDef, hcell, Refresh.cell]
  exact (if_pos hreplaced).symm

/-- A file behind the old ones. -/
theorem Stage.pushFile (hstage : Stage h i c) (hfile : next.material.files[i]? = some file)
    (hnone : c.files[i]? = none) : Stage h (i + 1) (c.pushFile i file) := by
  have hold : old.material.files[i]? = none := by
    have := hstage.files i
    rwa [hnone, if_neg (by omega), eq_comm, map_eq_none_iff] at this
  have htable : old.table i = [] := by
    unfold Input.table tableOf
    rw [hold]
  have hnew : next.table i = placedIn c.symbols i file := by
    unfold Input.table tableOf
    rw [hfile, hstage.symbols]
  have hreplaced : Replaced old same i := Or.inl (getElem?_eq_none_iff.mp hold)
  have hlen : c.files.length = i := by
    have hle := getElem?_eq_none_iff.mp hnone
    rcases Nat.lt_or_ge c.files.length i with hlt | hge
    · have hat := hstage.files c.files.length
      have hlt' : i < next.material.files.length := (List.getElem?_eq_some_iff.mp hfile).1
      rw [if_pos hlt, getElem?_eq_none le_rfl, getElem?_eq_getElem (by omega)] at hat
      cases hat
    · omega
  have hpush : c.pushFile i file = { (next.table i).foldl placeDef c with
      files := c.files ++ [shardOf next.symbols i file] } := by
    rw [CandidateCatalog.pushFile, indexShard_eq, (foldl_placeDef_frame _ c).2, hnew,
      hstage.symbols]
  have hunplaced := h.holds_unplaced hstage.holds
  have hcell := cell_succ_of_replaced hreplaced hstage.cell
  rw [htable, foldl_nil] at hunplaced hcell
  rw [hpush]
  refine ⟨(foldl_placeDef_frame _ c).1.trans hstage.symbols, fun f => ?_,
    (h.holds_placed hunplaced).congr rfl rfl rfl, hcell⟩
  change (c.files ++ [shardOf next.symbols i file])[f]? = _
  rcases Nat.lt_trichotomy f i with hlt | rfl | hgt
  · rw [getElem?_append_left (by omega), hstage.files, if_pos hlt, if_pos (by omega)]
  · rw [← hlen, getElem?_concat_length, hlen, if_pos (by omega), hfile, map_some]
  · have hle := getElem?_eq_none_iff.mp hold
    rw [getElem?_eq_none (by simp; omega), if_neg (by omega),
      getElem?_eq_none (by omega : old.material.files.length ≤ f), map_none]

/-- A file in the place of an old one. -/
theorem Stage.refreshFile (hstage : Stage h i c) (hfile : next.material.files[i]? = some file)
    (hsame : same i = false) {shard : CandidateFileShard} (hshard : c.files[i]? = some shard) :
    ∃ c', c.refreshFile i shard file = some c' ∧ Stage h (i + 1) c' := by
  have hat := hstage.files i
  rw [hshard, if_neg (by omega), eq_comm, map_eq_some_iff] at hat
  obtain ⟨oldFile, hold, rfl⟩ := hat
  have htable : old.table i = placedIn old.symbols i oldFile := by
    unfold Input.table tableOf
    rw [hold]
  have hnew : next.table i = placedIn next.symbols i file := by
    unfold Input.table tableOf
    rw [hfile]
  set cleared := (old.table i).foldl unplaceDef c with hcleared
  obtain ⟨hclearedSymbols, hclearedFiles⟩ := foldl_unplaceDef_frame (old.table i) c
  rw [← hcleared] at hclearedSymbols hclearedFiles
  have hunindex : unindexSlots i oldFile 0 (shardOf old.symbols i oldFile).byLocation c =
      some cleared := by
    rw [unindexSlots_shardOf, hcleared, htable]
  have hrefresh : c.refreshFile i (shardOf old.symbols i oldFile) file =
      some { (next.table i).foldl placeDef cleared with
        files := c.files.set i (shardOf next.symbols i file) } := by
    change (unindexSlots i oldFile 0 (shardOf old.symbols i oldFile).byLocation c).bind _ = _
    rw [hunindex, bind_some]
    simp only [indexShard_eq, (foldl_placeDef_frame _ cleared).2, hclearedSymbols, hclearedFiles,
      hstage.symbols, hnew]
  refine ⟨_, hrefresh, ((foldl_placeDef_frame _ cleared).1.trans hclearedSymbols).trans
    hstage.symbols, fun f => ?_, (h.holds_placed (h.holds_unplaced hstage.holds)).congr rfl rfl rfl,
    cell_succ_of_replaced (Or.inr hsame) hstage.cell⟩
  change (c.files.set i (shardOf next.symbols i file))[f]? = _
  by_cases hf : f = i
  · subst hf
    rw [getElem?_set_self (List.getElem?_eq_some_iff.mp hshard).1, if_pos (by omega), hfile,
      map_some]
  · rw [getElem?_set_ne (Ne.symm hf), hstage.files]
    exact if_congr (by omega) rfl rfl

/-- A file that stays. -/
theorem Stage.skip (hstage : Stage h i c) (hstays : ¬Replaced old same i) : Stage h (i + 1) c where
  symbols := hstage.symbols
  files f := by
    rw [hstage.files f]
    rcases Nat.lt_trichotomy f i with hlt | rfl | hgt
    · rw [if_pos hlt, if_pos (by omega)]
    · rw [if_neg (by omega), if_pos (by omega), h.shard_eq hstays]
    · rw [if_neg (by omega), if_neg (by omega)]
  holds := by
    refine hstage.holds.congr rfl rfl ?_
    ext e
    simp only [Set.mem_ofPred_eq, stageTable]
    rcases Nat.lt_trichotomy e.fileIdx i with hlt | heq | hgt
    · rw [if_pos hlt, if_pos (by omega)]
    · rw [if_neg (by omega), if_pos (by omega), heq, h.table_eq hstays]
    · rw [if_neg (by omega), if_neg (by omega)]
  cell moniker := by
    classical
    rw [hstage.cell, Refresh.cell]
    exact (if_neg hstays).symm

/-- One turn of the loop. -/
theorem Stage.refreshSlot (hstage : Stage h i c) (hfile : next.material.files[i]? = some file) :
    ∃ c', c.refreshSlot same i file = some c' ∧ Stage h (i + 1) c' := by
  unfold CandidateCatalog.refreshSlot
  cases hshard : c.files[i]? with
  | none => exact ⟨_, rfl, hstage.pushFile hfile hshard⟩
  | some shard =>
    cases hsame : same i with
    | true =>
      refine ⟨c, rfl, hstage.skip ?_⟩
      rintro (hle | hreplaced)
      · have hat := hstage.files i
        rw [hshard, if_neg (by omega), getElem?_eq_none hle] at hat
        cases hat
      · cases hsame.symm.trans hreplaced
    | false => exact hstage.refreshFile hfile hsame hshard

theorem Stage.refreshFrom : ∀ (files : List IndexedSourceFile) {i : ℕ} {c : CandidateCatalog},
    Stage h i c → i ≤ next.material.files.length → next.material.files.drop i = files →
      ∃ c', CandidateCatalog.refreshFrom same i files c = some c' ∧
        Stage h next.material.files.length c'
  | [], i, c, hstage, hi, hdrop => by
    obtain rfl : i = next.material.files.length := by
      have := drop_eq_nil_iff.mp hdrop
      omega
    exact ⟨c, rfl, hstage⟩
  | file :: files, i, c, hstage, hi, hdrop => by
    have hlt : i < next.material.files.length := by
      by_contra hge
      rw [drop_eq_nil_of_le (by omega)] at hdrop
      cases hdrop
    rw [drop_eq_getElem_cons hlt] at hdrop
    obtain ⟨rfl, hrest⟩ := cons.inj hdrop
    obtain ⟨c', hc', hstage'⟩ := hstage.refreshSlot (getElem?_eq_getElem hlt)
    obtain ⟨c'', hc'', hdone⟩ := hstage'.refreshFrom files hlt hrest
    refine ⟨c'', ?_, hdone⟩
    rw [CandidateCatalog.refreshFrom, hc']
    exact hc''

end Stage

/-! ## Refreshed and rebuilt -/

/-- Shards, locations and name indexes are those of a build. -/
structure Tabled (c : CandidateCatalog) (x : Input) : Prop where
  symbols : c.symbols = x.symbols
  files : ∀ f, c.files[f]? = (x.material.files[f]?).map (shardOf x.symbols f)
  holds : Holds c {e | e ∈ x.table e.fileIdx}

/-- The last definition of a moniker is the one it names. -/
def Names (c : CandidateCatalog) (x : Input) : Prop :=
  ∀ moniker, c.indexes.symbolByMoniker moniker =
    lastSome (fun f => lastNamed moniker (x.table f)) x.material.files.length

/-- All lookups of the two catalogs agree. -/
structure SameLookups (c c' : CandidateCatalog) : Prop where
  byMoniker : ∀ moniker, c.indexes.symbolByMoniker moniker = c'.indexes.symbolByMoniker moniker
  byLanguage : ∀ lang key, namesAt c.indexes.byLanguageName lang key =
    namesAt c'.indexes.byLanguageName lang key
  bySource : ∀ file key, namesAt c.indexes.bySourceName file key =
    namesAt c'.indexes.bySourceName file key
  sourceKeys : ∀ file key,
    (∃ names, c.indexes.bySourceName.lookup file = some names ∧ key ∈ names) ↔
      ∃ names, c'.indexes.bySourceName.lookup file = some names ∧ key ∈ names
  locations : ∀ o, c.locations.lookup o = c'.locations.lookup o
  files : c.files = c'.files

variable {c c' : CandidateCatalog} {x : Input}

theorem Tabled.sameLookups (h : Tabled c x) (h' : Tabled c' x)
    (hmoniker : ∀ moniker, c.indexes.symbolByMoniker moniker = c'.indexes.symbolByMoniker moniker) :
    SameLookups c c' where
  byMoniker := hmoniker
  byLanguage _ _ := h.holds.language.namesAt_eq h'.holds.language
  bySource _ _ := h.holds.source.namesAt_eq h'.holds.source
  sourceKeys _ _ := h.holds.source.keys_iff h'.holds.source
  locations o := by
    ext place
    rw [h.holds.locations, h'.holds.locations]
  files := by
    ext f : 1
    rw [h.files, h'.files]

theorem table_eq_nil (hf : x.material.files.length ≤ f) : x.table f = [] := by
  unfold Input.table tableOf
  rw [getElem?_eq_none hf]

/-- The first stage is the old catalog with the new symbols. -/
theorem stage_zero (h : Follows old next same) (htabled : Tabled c old) (hnames : Names c old) :
    Stage h 0 { c with symbols := next.symbols } where
  symbols := rfl
  files f := htabled.files f
  holds := htabled.holds.congr rfl rfl (by simp [stageTable])
  cell moniker := by
    have hnone : ∀ f, old.material.files.length ≤ f → lastNamed moniker (old.table f) = none := by
      intro f hf
      rw [table_eq_nil hf]
      rfl
    exact (hnames moniker).trans (lastSome_of_none h.grows hnone).symm

/-- A refresh goes through. It leaves what a build gives, but for the definitions that monikers
name : there the cells decide. -/
theorem refreshFiles_tabled (h : Follows old next same) (htabled : Tabled c old)
    (hnames : Names c old) : ∃ c', c.refreshFiles next.material next.symbols same = some c' ∧
      Tabled c' next ∧ (Names c' next ↔
        ∀ moniker, (h.refresh moniker).Undisturbed next.material.files.length) := by
  obtain ⟨c', hc', hstage⟩ :=
    (stage_zero h htabled hnames).refreshFrom next.material.files (Nat.zero_le _) rfl
  refine ⟨c', hc', ⟨hstage.symbols, fun f => ?_, hstage.holds.congr rfl rfl ?_⟩, ?_⟩
  · rw [hstage.files]
    split_ifs with hf
    · rfl
    · have hgrows := h.grows
      rw [getElem?_eq_none (by omega), getElem?_eq_none (by omega)]
      rfl
  · ext e
    simp only [Set.mem_ofPred_eq]
    rcases Nat.lt_or_ge e.fileIdx next.material.files.length with hlt | hge
    · exact mem_stageTable_of_lt hlt
    · have hgrows := h.grows
      rw [mem_stageTable_of_le hge, table_eq_nil (by omega), table_eq_nil hge]
  · refine forall_congr' fun moniker => ?_
    rw [hstage.cell]
    exact Refresh.cell_eq_lastSome_iff

/-- A build is a refresh of the empty catalog. -/
theorem build_tabled (x : Input) : Tabled (build x.material x.symbols) x ∧
    Names (build x.material x.symbols) x := by
  set none : Input := ⟨⟨[]⟩, x.symbols⟩ with hnone
  have hfollows : Follows none x fun _ => false := by
    refine ⟨Nat.zero_le _, fun f file hf => ?_, fun f file hf => ?_, fun o id id' hid hid' => ?_⟩
    · cases hf
    · cases hf
    · rw [some.inj (hid.symm.trans hid')]
  have hempty : Tabled ⟨[], x.symbols, ∅, .empty⟩ none := by
    have hlist : {e : PlacedDef | e ∈ none.table e.fileIdx} = ∅ := by
      ext e
      simp [Input.table, tableOf, hnone, CodeIndexMaterial.files]
    refine ⟨rfl, fun f => rfl, ?_⟩
    rw [hlist]
    exact ⟨fun o place => by simp, NamesListed.empty.congr fun _ _ _ => by simp,
      NamesListed.empty.congr fun _ _ _ => by simp⟩
  have hnames : Names ⟨[], x.symbols, ∅, .empty⟩ none := fun moniker => rfl
  obtain ⟨c, hc, htabled, hiff⟩ := refreshFiles_tabled hfollows hempty hnames
  have hfits : Fits ⟨[], x.symbols, ∅, .empty⟩ := ⟨by simp, by simp⟩
  have hbuild : CandidateCatalog.refreshFrom (fun _ => false) 0 x.material.files
      ⟨[], x.symbols, ∅, .empty⟩ = some (build x.material x.symbols) :=
    refreshFrom_eq_pushFiles _ x.material.files _ hfits
  obtain rfl : c = build x.material x.symbols := some.inj (hc.symm.trans hbuild)
  refine ⟨htabled, hiff.mpr fun moniker => ⟨?_, ?_⟩⟩
  · exact fun i j _ _ _ _ hstays => absurd (Or.inr rfl) hstays
  · exact fun i j _ _ _ _ hstays => absurd (Or.inr rfl) hstays

/-! ## Runs -/

/-- The file at an index defines the moniker. -/
def Input.Defines (x : Input) (f : ℕ) (moniker : Moniker) : Prop :=
  ∃ e ∈ x.table f, e.record.moniker = moniker

/-- For every moniker : no file that stays defines it behind the last file that is put in with it.
And where a file that had it is taken out, and no file is put in with it, a file that stays has it
further behind, or none has it. -/
structure KeepsWinners (old next : Input) (same : ℕ → Bool) : Prop where
  last : ∀ moniker i j, i < j → Replaced old same i → next.Defines i moniker →
    ¬Replaced old same j → next.Defines j moniker →
      ∃ k, j < k ∧ Replaced old same k ∧ next.Defines k moniker
  survivor : ∀ moniker i j, j < i → Replaced old same i → old.Defines i moniker →
    ¬Replaced old same j → next.Defines j moniker →
      (∃ k, Replaced old same k ∧ next.Defines k moniker) ∨
        ∃ k, i < k ∧ ¬Replaced old same k ∧ next.Defines k moniker

/-- A catalog that `new` and then refreshes have brought in line with `x`, where every refresh met
the condition. -/
inductive Reached (allowed : Input → Input → (ℕ → Bool) → Prop) : CandidateCatalog → Input → Prop
  | new (x : Input) : Reached allowed (build x.material x.symbols) x
  | refresh {c c' : CandidateCatalog} {old next : Input} {same : ℕ → Bool}
      (hc : Reached allowed c old) (h : Follows old next same) (hallowed : allowed old next same)
      (hrefresh : c.refreshFiles next.material next.symbols same = some c') :
      Reached allowed c' next

theorem lt_of_defines (h : x.Defines f moniker) : f < x.material.files.length := by
  by_contra hge
  obtain ⟨e, he, -⟩ := h
  rw [table_eq_nil (by omega)] at he
  cases he

/-- The condition speaks about every cell. -/
theorem keepsWinners_iff (h : Follows old next same) : KeepsWinners old next same ↔
    ∀ moniker, (h.refresh moniker).Undisturbed next.material.files.length := by
  have hbefore : ∀ moniker f, (h.refresh moniker).before f ≠ none ↔ old.Defines f moniker :=
    fun moniker f => lastNamed_ne_none
  have hafter : ∀ moniker f, (h.refresh moniker).after f ≠ none ↔ next.Defines f moniker :=
    fun moniker f => lastNamed_ne_none
  constructor
  · intro hkeeps moniker
    refine ⟨fun i j hij hj hi hsome hstays hsome' => ?_,
      fun i j hji hi hreplaced hold hstays hsome => ?_⟩
    · obtain ⟨k, hjk, hk, hdefines⟩ := hkeeps.last moniker i j hij hi ((hafter _ _).mp hsome) hstays
        ((hafter _ _).mp hsome')
      exact ⟨k, hjk, lt_of_defines hdefines, hk, (hafter _ _).mpr hdefines⟩
    · refine (hkeeps.survivor moniker i j hji hreplaced ((hbefore _ _).mp hold) hstays
        ((hafter _ _).mp hsome)).imp ?_ ?_
      · rintro ⟨k, hk, hdefines⟩
        exact ⟨k, lt_of_defines hdefines, hk, (hafter _ _).mpr hdefines⟩
      · rintro ⟨k, hik, hk, hdefines⟩
        exact ⟨k, hik, lt_of_defines hdefines, hk, (hafter _ _).mpr hdefines⟩
  · intro hcells
    refine ⟨fun moniker i j hij hi hdefines hstays hdefines' => ?_,
      fun moniker i j hji hi hold hstays hdefines => ?_⟩
    · obtain ⟨k, hjk, -, hk, hsome⟩ := (hcells moniker).last i j hij (lt_of_defines hdefines') hi
        ((hafter _ _).mpr hdefines) hstays ((hafter _ _).mpr hdefines')
      exact ⟨k, hjk, hk, (hafter _ _).mp hsome⟩
    · have hlt : i < next.material.files.length := (lt_of_defines hold).trans_le h.grows
      refine ((hcells moniker).survivor i j hji hlt hi ((hbefore _ _).mpr hold) hstays
        ((hafter _ _).mpr hdefines)).imp ?_ ?_
      · rintro ⟨k, -, hk, hsome⟩
        exact ⟨k, hk, (hafter _ _).mp hsome⟩
      · rintro ⟨k, hik, -, hk, hsome⟩
        exact ⟨k, hik, hk, (hafter _ _).mp hsome⟩

/-- One refresh of a catalog that a build would have given. -/
theorem refreshFiles_names (h : Follows old next same) (htabled : Tabled c old)
    (hnames : Names c old) : ∃ c', c.refreshFiles next.material next.symbols same = some c' ∧
      Tabled c' next ∧ (Names c' next ↔ KeepsWinners old next same) := by
  obtain ⟨c', hc', htabled', hiff⟩ := refreshFiles_tabled h htabled hnames
  exact ⟨c', hc', htabled', hiff.trans (keepsWinners_iff h).symm⟩

theorem Reached.names (hc : Reached KeepsWinners c x) : Tabled c x ∧ Names c x := by
  induction hc with
  | new x => exact build_tabled x
  | @refresh c c' old next same hc h hallowed hrefresh ih =>
    obtain ⟨c'', hc'', htabled, hiff⟩ := refreshFiles_names h ih.1 ih.2
    obtain rfl : c' = c'' := some.inj (hrefresh.symm.trans hc'')
    exact ⟨htabled, hiff.mpr hallowed⟩

/-- A refresh goes through, and it looks up what a rebuild looks up exactly if it keeps the winners.
So after refreshes that all do, every lookup is that of a rebuild. -/
theorem refreshFiles_sameLookups_iff (hc : Reached KeepsWinners c old) (h : Follows old next same) :
    ∃ c', c.refreshFiles next.material next.symbols same = some c' ∧
      (SameLookups c' (build next.material next.symbols) ↔ KeepsWinners old next same) := by
  obtain ⟨htabled, hnames⟩ := hc.names
  obtain ⟨c', hc', htabled', hiff⟩ := refreshFiles_names h htabled hnames
  obtain ⟨hbuilt, hbuiltNames⟩ := build_tabled next
  refine ⟨c', hc', ?_⟩
  rw [← hiff]
  constructor
  · exact fun hsame moniker => (hsame.byMoniker moniker).trans (hbuiltNames moniker)
  · exact fun hnames' => htabled'.sameLookups hbuilt fun moniker =>
      (hnames' moniker).trans (hbuiltNames moniker).symm

end Refresh

/-! ## Two Java files with one class

Java monikers name the package and the file, not the directory, so `x/A.java` and `y/A.java` have
the class `A` under one moniker. -/

def moduleA : Moniker :=
  Moniker.ofParts (byteString "app")
    [⟨byteString "lang", byteString "java"⟩, ⟨byteString "module", byteString "A"⟩]
    admitted_app (by decide)

def classA : Moniker :=
  Moniker.ofParts (byteString "app")
    [⟨byteString "lang", byteString "java"⟩, ⟨byteString "module", byteString "A"⟩,
      ⟨byteString "class", byteString "A"⟩] admitted_app (by decide)

def recordA (kind : String) (moniker : Moniker) (parent : Option ℕ) : DefRecord where
  moniker
  kind := byteString kind
  parent
  position := none
  visibility := byteString "package"
  signature := []
  callName := []
  callArity := none
  binding := byteString "export"
  origin := byteString "extracted"

def fileA (path : String) : IndexedSourceFile :=
  ⟨0, path, .java, .fromRecords [recordA "module" moduleA none, recordA "class" classA (some 0)] []⟩

def sameClasses : Input where
  material := ⟨[⟨fileA "x/A.java", false⟩, ⟨fileA "y/A.java", false⟩]⟩
  symbols := (((SymbolOrdinalCatalog.empty.bindId 0 ⟨0, 0⟩).bindId 1 ⟨0, 1⟩).bindId 2
    ⟨1, 0⟩).bindId 3 ⟨1, 1⟩

theorem follows_sameClasses (same : ℕ → Bool) : Follows sameClasses sameClasses same where
  grows := le_rfl
  shares _ _ hfile _ := hfile
  keeps _ _ _ _ _ _ := rfl
  stays _ _ _ hid hid' := congrArg SymbolId.file (some.inj (hid.symm.trans hid'))

/-- A refresh of the second file keeps the winner. -/
theorem refreshFiles_sameLookups_second :
    ∃ c', (build sameClasses.material sameClasses.symbols).refreshFiles sameClasses.material
        sameClasses.symbols (· ≠ 1) = some c' ∧
      SameLookups c' (build sameClasses.material sameClasses.symbols) := by
  obtain ⟨c', hc', hiff⟩ := refreshFiles_sameLookups_iff (.new sameClasses)
    (follows_sameClasses fun f => f ≠ 1)
  refine ⟨c', hc', hiff.mpr ⟨fun moniker i j hij hi hdefines hstays hdefines' => ?_,
    fun moniker i j hji hi hold hstays hdefines => Or.inl ⟨i, hi, hold⟩⟩⟩
  have hj : j < 2 := lt_of_defines hdefines'
  rcases hi with hle | hsame
  · have hle' : 2 ≤ i := hle
    omega
  · have : i = 1 := by simpa using hsame
    omega

theorem isLinkageCandidateDef_classA :
    isLinkageCandidateDef (recordA "class" classA (some 0)) = true := by
  have hname : hasPositionBackedAnonymousName classA = false := by
    unfold hasPositionBackedAnonymousName classA
    rw [Moniker.segments_ofParts]
    decide
  have hkind : byteString "class" ≠ byteString "comment" := by decide
  simp [isLinkageCandidateDef, recordA, hname, hkind]

theorem defines_sameClasses (hf : f < 2) : sameClasses.Defines f classA := by
  have hplaced : ∀ path o, sameClasses.material.files[f]? = some (fileA path) →
      sameClasses.symbols.ordinal ⟨f, 1⟩ = some o → sameClasses.Defines f classA := by
    intro path o hfile ho
    refine ⟨⟨f, 1, .java, recordA "class" classA (some 0), o⟩,
      mem_tableOf.mpr ⟨_, hfile, mem_placedIn.mpr ?_⟩, rfl⟩
    exact ⟨rfl, rfl, rfl, isLinkageCandidateDef_classA, ho⟩
  match f, hf with
  | 0, _ => exact hplaced "x/A.java" 1 rfl rfl
  | 1, _ => exact hplaced "y/A.java" 3 rfl rfl

/-- A refresh of the first file moves the moniker to it, where a rebuild leaves it with the
second. -/
theorem refreshFiles_first_class : ¬∀ (c : CandidateCatalog) (old next : Input) (same : ℕ → Bool),
      Reached (fun _ _ _ => True) c old → Follows old next same →
        ∃ c', c.refreshFiles next.material next.symbols same = some c' ∧
          SameLookups c' (build next.material next.symbols) := by
  intro hall
  obtain ⟨c', hc', hsame⟩ := hall _ sameClasses sameClasses (· ≠ 0) (.new sameClasses) (follows_sameClasses _)
  obtain ⟨htabled, hnames⟩ := build_tabled sameClasses
  obtain ⟨c'', hc'', -, hiff⟩ := refreshFiles_names (follows_sameClasses (· ≠ 0)) htabled hnames
  obtain rfl : c' = c'' := some.inj (hc'.symm.trans hc'')
  have hkeeps := hiff.mp fun moniker => (hsame.byMoniker moniker).trans (hnames moniker)
  have hstays : ¬Replaced sameClasses (· ≠ 0) 1 := by
    rintro (hle | hreplaced)
    · have hle' : 2 ≤ 1 := hle
      omega
    · simp at hreplaced
  obtain ⟨k, hk, -, hdefines⟩ := hkeeps.last classA 0 1 Nat.one_pos (Or.inr rfl)
    (defines_sameClasses Nat.two_pos) hstays (defines_sameClasses Nat.one_lt_two)
  have hlt : k < 2 := lt_of_defines hdefines
  omega

end CandidateCatalog

end CodeMoniker
