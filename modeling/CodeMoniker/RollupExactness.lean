import CodeMoniker.IdentityAccounts

/-!
# When roll-ups are exact

The identities of a snapshot are the texts of monikers (`NamedSnapshot`). A scope that is the path
of a moniker has the children that its symbols have there, and each child counts its symbols, as
long as no name has a `/` in it and no two symbols are the same child (`PlainChildren`). Then the
graph books every reference once. A name with a `/` is cut in two, and its first half is the text
of no segment. Of two symbols that are the same child one is forgotten.
-/

namespace CodeMoniker

open List ByteCodec Query
open Except (ok.inj)

/-- A snapshot of one project. The identity of every symbol is the text of its moniker. -/
structure NamedSnapshot where
  snapshot : IdentitySnapshot
  project : Project
  place : IndexedSymbol → List NamedSegment
  named : ∀ symbol ∈ snapshot.symbols.iter,
    symbol.identity = monikerUri defaultScheme (monikerOf project (place symbol))

namespace NamedSnapshot

variable (n : NamedSnapshot) (p : List NamedSegment)

def path (p : List NamedSegment) : List Char := pathText n.project p

/-- The segment of a symbol after the prefix. -/
def child (symbol : IndexedSymbol) : Option NamedSegment := (below p (n.place symbol)).map (·.1)

theorem path_place {symbol : IndexedSymbol} (h : symbol ∈ n.snapshot.symbols.iter) :
    symbol.path = pathText n.project (n.place symbol) := by
  rw [IndexedSymbol.path, n.named symbol h, toList_monikerUri]
  rfl

theorem child_eq_some {symbol : IndexedSymbol} {c : NamedSegment} :
    n.child p symbol = some c ↔ ∃ more, n.place symbol = p ++ c :: more := by
  simp only [child, Option.map_eq_some_iff, Prod.exists]
  constructor
  · rintro ⟨c', more, h, rfl⟩
    exact ⟨more, below_eq_some.mp h⟩
  · rintro ⟨more, h⟩
    exact ⟨c, more, below_eq_some.mpr h, rfl⟩

end NamedSnapshot

section Groups

variable (n : NamedSnapshot) (p : List NamedSegment) (pathFilter : String → Bool)

/-- The name that is cut for a symbol. -/
def cutName (symbol : IndexedSymbol) : List Char := ((n.child p symbol).map cutText).getD []

def tailName (symbol : IndexedSymbol) : Option (List Char) :=
  (below p (n.place symbol)).bind fun b => tailText b.1 b.2

/-- The symbols that are shown below the prefix. -/
def symbolsBelow : List IndexedSymbol :=
  (selectedSymbols n.snapshot pathFilter).filter fun symbol => (n.child p symbol).isSome

/-- The symbols of one name. -/
def symbolsNamed (text : List Char) : List IndexedSymbol :=
  (symbolsBelow n p pathFilter).filter fun symbol => cutName n p symbol = text

def aggregate (symbols : List IndexedSymbol) : SegmentAgg :=
  symbols.foldl (fun agg symbol => agg.add symbol (tailName n p symbol)) {}

variable {n p pathFilter}

theorem mem_iter_of_selected {symbol : IndexedSymbol}
    (h : symbol ∈ selectedSymbols n.snapshot pathFilter) : symbol ∈ n.snapshot.symbols.iter :=
  (mem_filter.mp h).1

variable (n p pathFilter) in
theorem segmentGroups_eq : segmentGroups n.snapshot (n.path p) pathFilter =
    (symbolsBelow n p pathFilter).foldl (fun groups symbol =>
      groups.update (cutName n p symbol) {} (·.add symbol (tailName n p symbol))) ∅ := by
  rw [segmentGroups, symbolsBelow, foldl_filter]
  refine foldl_ext _ _ _ fun groups symbol hmem => ?_
  rw [NamedSnapshot.path, nextSegment_eq (n.path_place (mem_iter_of_selected hmem))]
  simp only [NamedSnapshot.child, cutName, tailName, Option.isSome_map]
  cases below p (n.place symbol) <;> rfl

theorem get?_segmentGroups (text : List Char) :
    (segmentGroups n.snapshot (n.path p) pathFilter).get? text =
      if symbolsNamed n p pathFilter text = [] then none
      else some (aggregate n p (symbolsNamed n p pathFilter text)) := by
  rw [segmentGroups_eq, OrdMap.get?_foldl_update]
  split
  · rename_i hnil
    have hnone : symbolsNamed n p pathFilter text = [] := by
      rw [symbolsNamed]
      convert hnil
    rw [if_pos hnone]
    rfl
  · rename_i symbol group hcons
    have hsome : symbolsNamed n p pathFilter text = symbol :: group := by
      rw [symbolsNamed]
      convert hcons
    rw [hsome, if_neg (cons_ne_nil _ _)]
    rfl

theorem aggregate_spec (symbols : List IndexedSymbol) :
    (aggregate n p symbols).defs = symbols.countP (fun symbol => (tailName n p symbol).isSome) ∧
      ((aggregate n p symbols).direct = none ↔ ∀ symbol ∈ symbols, tailName n p symbol ≠ none) ∧
      ∀ symbol ∈ (aggregate n p symbols).direct, symbol ∈ symbols := by
  induction symbols using reverseRecOn with
  | nil => exact ⟨rfl, by simp [aggregate], by simp [aggregate]⟩
  | append_singleton symbols symbol ih =>
    obtain ⟨hdefs, hdirect, hmem⟩ := ih
    have hstep : aggregate n p (symbols ++ [symbol]) =
        (aggregate n p symbols).add symbol (tailName n p symbol) := by
      rw [aggregate, foldl_append]
      rfl
    rw [hstep]
    cases htail : tailName n p symbol with
    | none =>
      refine ⟨?_, ?_, ?_⟩
      · simp [SegmentAgg.add, hdefs, htail]
      · simp [SegmentAgg.add, htail]
      · simp [SegmentAgg.add]
    | some tail =>
      refine ⟨?_, ?_, ?_⟩
      · simp [SegmentAgg.add, hdefs, htail]
      · simp [SegmentAgg.add, hdirect, htail, or_imp, forall_and]
      · intro x hx
        exact mem_append_left _ (hmem x hx)

end Groups

/-! ## Exact answers -/

section Exact

variable (n : NamedSnapshot) (p : List NamedSegment)

def shownSymbols : List IndexedSymbol := n.snapshot.symbols.iter.filter (·.navigable)

/-- The children are the next segments, and each counts its symbols. -/
structure ChildrenExact (children : List IdentitySegmentDto) : Prop where
  segments : ∀ text, text ∈ children.map (·.segment) ↔
    ∃ symbol ∈ shownSymbols n, ∃ c, n.child p symbol = some c ∧ segmentText c = text
  nodup : (children.map (·.segment)).Nodup
  counted : ∀ dto ∈ children, dto.defs + (if dto.symbol.isSome then 1 else 0) =
    (shownSymbols n).countP fun symbol =>
      (n.child p symbol).map segmentText = some dto.segment

section Graph

variable {crate : RegexCrate} (filter : FilePathFilter crate)

/-- The child of a symbol in a file of the filter. -/
def selectedChild (symbol : IndexedSymbol) : Option NamedSegment :=
  if (n.snapshot.source symbol).any fun source => filter.matches source.relPath.toList then
    n.child p symbol
  else none

/-- How many references of the snapshot have an account. -/
def referencesAs (x : Account NamedSegment) : ℕ :=
  accountOf n.snapshot (selectedChild n p filter) x n.snapshot.references.iter

/-- The rows of the graph and what they add up to. -/
structure GraphExact (sections : IdentityGraphSections) (u : UnlinkedRefs) : Prop where
  edge : ∀ edge ∈ sections.edges, ∃ a b, edge.source = n.path (p ++ [a]) ∧
    edge.target = n.path (p ++ [b]) ∧ edge.count = referencesAs n p filter (.edge a b) ∧
      0 < edge.count
  edges : ∀ a b, 0 < referencesAs n p filter (.edge a b) → ∃ edge ∈ sections.edges,
    edge.source = n.path (p ++ [a]) ∧ edge.target = n.path (p ++ [b])
  ends : ∀ edge ∈ sections.edges, edge.source ∈ sections.nodes.map (·.identity) ∧
    edge.target ∈ sections.nodes.map (·.identity)
  nodup : (sections.edges.map fun edge => (edge.source, edge.target)).Nodup
  portsIn : (sections.portsIn.map (·.count)).sum = referencesAs n p filter .inbound
  portsOut : (sections.portsOut.map (·.count)).sum = referencesAs n p filter .outbound
  unlinked : u.total = referencesAs n p filter .unlinked
  total : n.snapshot.references.iter.countP (fun r =>
      account n.snapshot (selectedChild n p filter) r ≠ .unanchored) =
    n.snapshot.references.iter.countP (fun r =>
        (account n.snapshot (selectedChild n p filter) r).isIntra) +
      (sections.edges.map (·.count)).sum + (sections.portsIn.map (·.count)).sum +
        (sections.portsOut.map (·.count)).sum + u.total + referencesAs n p filter .outside

end Graph

/-- What the two queries answer for a prefix. An answer may be cut by its limit or its page, or
leave out rows of few references, and is whole otherwise. -/
structure RollupsExact (text : List Char) : Prop where
  children : ∀ roots workspace limit result,
    identityChildrenResponse n.snapshot roots ⟨workspace, text, limit⟩ = .ok result →
      result.total ≤ limit → ChildrenExact n p result.children
  graph : ∀ crate roots (query : IdentityGraphQuery) limit generation result,
    query.prefix_ = text → query.minCount ≤ 1 →
    identityGraphResponse crate n.snapshot roots query ⟨none, limit⟩ generation = .ok result →
      result.nextCursor = none → ∃ filter : FilePathFilter crate,
        FilePathFilter.compile crate query.path = .ok filter ∧
          GraphExact n p filter result.sections result.unlinked

/-- No name below the prefix has a `/`, and no two symbols are the same child. -/
structure PlainChildren : Prop where
  noSlash : ∀ symbol ∈ shownSymbols n, ∀ c, n.child p symbol = some c → slash ∉ c.1.name
  alone : ∀ c, ∀ x ∈ shownSymbols n, ∀ y ∈ shownSymbols n, n.place x = p ++ [c] →
    n.place y = p ++ [c] → x = y

end Exact

/-! ## Children -/

section Children

variable {n : NamedSnapshot} {p : List NamedSegment} {pathFilter : String → Bool}

theorem source_isSome {s : IdentitySnapshot} {symbol : IndexedSymbol}
    (h : symbol ∈ s.symbols.iter) : ∃ source, s.source symbol = some source := by
  obtain ⟨d, hd⟩ := mem_iff_getElem?.mp (SymbolTable.mem_iter.mp h)
  obtain ⟨-, hsource, -⟩ := s.symbols.placed _ _ _ hd
  have hlt : symbol.id.file < s.symbols.shards.length := by
    by_contra hge
    rw [SymbolTable.fileRecords, getElem?_eq_none (Nat.le_of_not_lt hge)] at hd
    cases hd
  rw [s.sourced, ← hsource] at hlt
  exact ⟨_, getElem?_eq_getElem hlt⟩

theorem selectedSymbols_all : selectedSymbols n.snapshot (fun _ => true) = shownSymbols n := by
  refine filter_congr fun symbol hmem => ?_
  obtain ⟨source, hsource⟩ := source_isSome hmem
  rw [hsource]
  simp

theorem map_segment_identitySegmentsScoped (roots : List String) (scope : List Char) :
    (identitySegmentsScoped n.snapshot roots scope pathFilter).map (·.segment) =
      (segmentGroups n.snapshot scope pathFilter).keys := by
  rw [identitySegmentsScoped, map_map]
  rfl

theorem mem_symbolsNamed {text : List Char} {symbol : IndexedSymbol} :
    symbol ∈ symbolsNamed n p pathFilter text ↔ symbol ∈ selectedSymbols n.snapshot pathFilter ∧
      ∃ c, n.child p symbol = some c ∧ cutText c = text := by
  simp only [symbolsNamed, symbolsBelow, mem_filter, decide_eq_true_eq, and_assoc]
  refine and_congr_right fun _ => ?_
  rw [cutName]
  cases n.child p symbol <;> simp

theorem mem_keys_segmentGroups {text : List Char} :
    text ∈ (segmentGroups n.snapshot (n.path p) pathFilter).keys ↔
      ∃ symbol ∈ selectedSymbols n.snapshot pathFilter, ∃ c, n.child p symbol = some c ∧
        cutText c = text := by
  rw [OrdMap.mem_keys, get?_segmentGroups]
  constructor
  · rintro ⟨agg, hagg⟩
    split_ifs at hagg with hnil
    obtain ⟨symbol, hmem⟩ := exists_mem_of_ne_nil _ hnil
    exact ⟨symbol, mem_symbolsNamed.mp hmem⟩
  · rintro ⟨symbol, hmem⟩
    exact ⟨_, if_neg (ne_nil_of_mem (mem_symbolsNamed.mpr hmem))⟩

variable {roots : List String}

theorem mem_identitySegmentsScoped {dto : IdentitySegmentDto}
    (h : dto ∈ identitySegmentsScoped n.snapshot roots (n.path p) pathFilter) :
    dto.segment ∈ (segmentGroups n.snapshot (n.path p) pathFilter).keys ∧
      dto.defs = (symbolsNamed n p pathFilter dto.segment).countP
        (fun symbol => (tailName n p symbol).isSome) ∧ (dto.symbol.isSome = true ↔
        ∃ symbol ∈ symbolsNamed n p pathFilter dto.segment, tailName n p symbol = none) := by
  obtain ⟨⟨text, agg⟩, hentry, rfl⟩ := mem_map.mp h
  have hget := OrdMap.mem_entries.mp hentry
  have hkey := OrdMap.mem_keys.mpr ⟨_, hget⟩
  rw [get?_segmentGroups] at hget
  split_ifs at hget
  obtain rfl := Option.some.inj hget
  obtain ⟨hdefs, hdirect, hmem⟩ := aggregate_spec (n := n) (p := p)
    (symbolsNamed n p pathFilter text)
  refine ⟨hkey, hdefs, ?_⟩
  have hsymbol : (identitySegmentDto n.snapshot roots (n.path p) text
      (aggregate n p (symbolsNamed n p pathFilter text))).symbol.isSome =
        (aggregate n p (symbolsNamed n p pathFilter text)).direct.isSome := by
    rw [identitySegmentDto]
    cases hrecord : (aggregate n p (symbolsNamed n p pathFilter text)).direct with
    | none => rfl
    | some record =>
      have hiter := mem_iter_of_selected (mem_symbolsNamed.mp (hmem record hrecord)).1
      obtain ⟨source, hsource⟩ := source_isSome hiter
      simp [hsource]
  change (identitySegmentDto n.snapshot roots (n.path p) text
    (aggregate n p (symbolsNamed n p pathFilter text))).symbol.isSome = true ↔ _
  rw [hsymbol, Option.isSome_iff_ne_none, Ne, hdirect]
  push Not
  rfl

/-- The symbols of a child, where no name is cut. -/
theorem length_symbolsNamed (hslash : ∀ symbol ∈ shownSymbols n, ∀ c,
    n.child p symbol = some c → slash ∉ c.1.name) (text : List Char) :
    (symbolsNamed n p (fun _ => true) text).length =
      (shownSymbols n).countP fun symbol => (n.child p symbol).map segmentText = some text := by
  rw [symbolsNamed, symbolsBelow, filter_filter, selectedSymbols_all, ← countP_eq_length_filter]
  refine countP_congr fun symbol hmem => ?_
  rw [cutName]
  cases hchild : n.child p symbol with
  | none => simp
  | some c => simp [cutText_eq (hslash symbol hmem c hchild)]

theorem tailName_eq_none {symbol : IndexedSymbol} {c : NamedSegment}
    (hchild : n.child p symbol = some c) :
    tailName n p symbol = none ↔ slash ∉ c.1.name ∧ n.place symbol = p ++ [c] := by
  obtain ⟨more, hplace⟩ := (n.child_eq_some p).mp hchild
  rw [tailName, below_eq_some.mpr hplace, Option.bind_some, tailText_eq_none, hplace]
  simp

theorem nodup_shownSymbols : (shownSymbols n).Nodup :=
  (Nodup.of_map _ n.snapshot.symbols.iter_ids_nodup).filter _

/-- The symbols that end with a name. Only the last of them is shown as its symbol. -/
def directSymbols (n : NamedSnapshot) (p : List NamedSegment) (text : List Char) :
    List IndexedSymbol :=
  (symbolsNamed n p (fun _ => true) text).filter fun symbol => (tailName n p symbol).isNone

theorem mem_directSymbols {symbol : IndexedSymbol} {text : List Char} :
    symbol ∈ directSymbols n p text ↔ symbol ∈ shownSymbols n ∧ ∃ c, slash ∉ c.1.name ∧
      segmentText c = text ∧ n.place symbol = p ++ [c] := by
  rw [directSymbols, mem_filter, mem_symbolsNamed, selectedSymbols_all, and_assoc,
    Option.isNone_iff_eq_none]
  refine and_congr_right fun _ => ?_
  constructor
  · rintro ⟨⟨c, hchild, htext⟩, htail⟩
    obtain ⟨hslash, hplace⟩ := (tailName_eq_none hchild).mp htail
    exact ⟨c, hslash, by rw [← htext, cutText_eq hslash], hplace⟩
  · rintro ⟨c, hslash, htext, hplace⟩
    have hchild : n.child p symbol = some c := (n.child_eq_some p).mpr ⟨[], hplace⟩
    exact ⟨⟨c, hchild, by rw [← htext, cutText_eq hslash]⟩,
      (tailName_eq_none hchild).mpr ⟨hslash, hplace⟩⟩

/-- A child counts all its symbols if at most one of them ends with its name. -/
theorem counted_iff {dto : IdentitySegmentDto}
    (h : dto ∈ identitySegments n.snapshot roots (n.path p)) :
    dto.defs + (if dto.symbol.isSome then 1 else 0) =
        (symbolsNamed n p (fun _ => true) dto.segment).length ↔
      (directSymbols n p dto.segment).length ≤ 1 := by
  obtain ⟨-, hdefs, hsymbol⟩ := mem_identitySegmentsScoped h
  have hsplit := length_eq_countP_add_countP (fun symbol => (tailName n p symbol).isSome)
    (l := symbolsNamed n p (fun _ => true) dto.segment)
  have hdirect : (symbolsNamed n p (fun _ => true) dto.segment).countP
      (fun symbol => ¬(tailName n p symbol).isSome) = (directSymbols n p dto.segment).length := by
    rw [directSymbols, ← countP_eq_length_filter]
    refine countP_congr fun symbol _ => ?_
    simp
  have hsome : dto.symbol.isSome = true ↔ 0 < (directSymbols n p dto.segment).length := by
    rw [hsymbol, length_pos_iff_exists_mem]
    simp [directSymbols, mem_filter]
  rw [hdefs]
  rw [hdirect] at hsplit
  by_cases hpos : 0 < (directSymbols n p dto.segment).length
  · rw [if_pos (hsome.mpr hpos)]
    omega
  · rw [if_neg (fun hs => hpos (hsome.mp hs))]
    omega

theorem nodup_directSymbols (text : List Char) : (directSymbols n p text).Nodup := by
  refine Nodup.filter _ (Nodup.filter _ (Nodup.filter _ ?_))
  rw [selectedSymbols_all]
  exact nodup_shownSymbols

/-- The names that are cut are segments only if no name has a `/`. -/
theorem ChildrenExact.noSlash (h : ChildrenExact n p (identitySegments n.snapshot roots (n.path p)))
    {symbol : IndexedSymbol} (hmem : symbol ∈ shownSymbols n) {c : NamedSegment}
    (hchild : n.child p symbol = some c) : slash ∉ c.1.name := by
  intro hslash
  have hkey : cutText c ∈ (identitySegments n.snapshot roots (n.path p)).map (·.segment) := by
    rw [identitySegments, map_segment_identitySegmentsScoped, mem_keys_segmentGroups,
      selectedSymbols_all]
    exact ⟨symbol, hmem, c, hchild, rfl⟩
  obtain ⟨-, -, t, -, htext⟩ := (h.segments _).mp hkey
  exact cutText_ne_segmentText hslash t htext.symm

theorem ChildrenExact.plain (h : ChildrenExact n p (identitySegments n.snapshot roots (n.path p))) :
    PlainChildren n p where
  noSlash _ hmem _ hchild := h.noSlash hmem hchild
  alone c x hx y hy hplace hplace' := by
    have hchild : n.child p x = some c := (n.child_eq_some p).mpr ⟨[], hplace⟩
    have hslash := h.noSlash hx hchild
    obtain ⟨dto, hdto, htext⟩ :=
      mem_map.mp ((h.segments (segmentText c)).mpr ⟨x, hx, c, hchild, rfl⟩)
    have hlength : (directSymbols n p dto.segment).length ≤ 1 := by
      rw [← counted_iff hdto, length_symbolsNamed fun _ hmem _ => h.noSlash hmem]
      exact h.counted dto hdto
    have hxmem : x ∈ directSymbols n p dto.segment :=
      mem_directSymbols.mpr ⟨hx, c, hslash, htext.symm, hplace⟩
    have hymem : y ∈ directSymbols n p dto.segment :=
      mem_directSymbols.mpr ⟨hy, c, hslash, htext.symm, hplace'⟩
    obtain ⟨z, hz⟩ := length_eq_one_iff.mp
      (le_antisymm hlength (length_pos_of_mem hxmem))
    rw [hz, mem_singleton] at hxmem hymem
    rw [hxmem, hymem]

theorem PlainChildren.length_directSymbols (h : PlainChildren n p) (text : List Char) :
    (directSymbols n p text).length ≤ 1 := by
  have hnodup := nodup_directSymbols (n := n) (p := p) text
  match hdirect : directSymbols n p text with
  | [] => exact Nat.zero_le 1
  | [_] => exact le_refl 1
  | x :: y :: more =>
    rw [hdirect] at hnodup
    obtain ⟨hx, c, -, hc, hplace⟩ :=
      mem_directSymbols.mp (hdirect ▸ mem_cons_self : x ∈ directSymbols n p text)
    obtain ⟨hy, c', -, hc', hplace'⟩ := mem_directSymbols.mp
      (hdirect ▸ mem_cons_of_mem _ mem_cons_self : y ∈ directSymbols n p text)
    obtain rfl := segmentText_injective (hc.trans hc'.symm)
    have hsame := h.alone c x hx y hy hplace hplace'
    exact absurd (mem_cons.mpr (Or.inl hsame)) (nodup_cons.mp hnodup).1

theorem PlainChildren.childrenExact (h : PlainChildren n p) (roots : List String) :
    ChildrenExact n p (identitySegments n.snapshot roots (n.path p)) where
  segments text := by
    rw [identitySegments, map_segment_identitySegmentsScoped, mem_keys_segmentGroups,
      selectedSymbols_all]
    refine exists_congr fun symbol => and_congr_right fun hmem => exists_congr fun c =>
      and_congr_right fun hchild => ?_
    rw [cutText_eq (h.noSlash symbol hmem c hchild)]
  nodup := by
    rw [identitySegments, map_segment_identitySegmentsScoped]
    exact OrdMap.nodup_keys _
  counted dto hdto := by
    rw [← length_symbolsNamed h.noSlash, counted_iff hdto]
    exact h.length_directSymbols dto.segment

end Children

/-! ## Graph -/

section GraphRows

variable {n : NamedSnapshot} {p : List NamedSegment} {crate : RegexCrate}
  {filter : FilePathFilter crate}

/-- The identity of a child. -/
def NamedSnapshot.childPath (n : NamedSnapshot) (p : List NamedSegment) (c : NamedSegment) :
    List Char :=
  n.path (p ++ [c])

theorem scopedIdentity_eq (c : NamedSegment) :
    scopedIdentity (n.path p) (segmentText c) = n.childPath p c :=
  scopedIdentity_pathText p c

theorem childPath_injective : Function.Injective (n.childPath p) := by
  intro a b h
  rw [← scopedIdentity_eq, ← scopedIdentity_eq] at h
  unfold scopedIdentity at h
  split_ifs at h
  · exact segmentText_injective h
  · exact segmentText_injective (cons.inj (append_cancel_left h)).2

theorem selectedSegment_eq (h : PlainChildren n p) {symbol : IndexedSymbol}
    (hmem : symbol ∈ shownSymbols n) : selectedSegment n.snapshot (n.path p) filter symbol =
      (selectedChild n p filter symbol).map (n.childPath p) := by
  unfold selectedSegment selectedChild
  split_ifs with hselected
  · rw [NamedSnapshot.path, scopeSegment_eq (n.path_place (mem_filter.mp hmem).1)]
    cases hbelow : below p (n.place symbol) with
    | none => simp [NamedSnapshot.child, hbelow]
    | some b =>
      have hchild : n.child p symbol = some b.1 := by rw [NamedSnapshot.child, hbelow]; rfl
      rw [hchild, Option.map_some, Option.map_some, cutText_eq (h.noSlash symbol hmem _ hchild)]
      exact congrArg some (scopedIdentity_eq b.1)
  · rfl

theorem account_selectedSegment (h : PlainChildren n p) (r : ReferenceRecord) :
    account n.snapshot (selectedSegment n.snapshot (n.path p) filter) r =
      (account n.snapshot (selectedChild n p filter) r).map (n.childPath p) := by
  rw [← account_map n.snapshot _ childPath_injective]
  refine account_congr n.snapshot _ (fun symbol hmem hshown => ?_) r
  exact selectedSegment_eq h (mem_filter.mpr ⟨hmem, hshown⟩)

theorem accountOf_selectedSegment (h : PlainChildren n p) (x : Account NamedSegment) :
    accountOf n.snapshot (selectedSegment n.snapshot (n.path p) filter) (x.map (n.childPath p))
        n.snapshot.references.iter = referencesAs n p filter x := by
  rw [referencesAs, ← accountOf_map n.snapshot _ (childPath_injective (n := n) (p := p))]
  refine countP_congr fun r _ => ?_
  rw [account_selectedSegment h, account_map n.snapshot _ childPath_injective]

theorem isEdge_selectedSegment (h : PlainChildren n p) (r : ReferenceRecord) :
    (account n.snapshot (selectedSegment n.snapshot (n.path p) filter) r).isEdge =
      (account n.snapshot (selectedChild n p filter) r).isEdge := by
  rw [account_selectedSegment h]
  cases account n.snapshot (selectedChild n p filter) r <;> rfl

/-- A child of a selected symbol has a row. -/
theorem mem_nodes (h : PlainChildren n p) {roots : List String} {symbol : IndexedSymbol}
    (hmem : symbol ∈ shownSymbols n) {c : NamedSegment}
    (hchild : selectedChild n p filter symbol = some c) : n.childPath p c ∈
      (graphSections n.snapshot roots (n.path p) filter).nodes.map (·.identity) := by
  rw [selectedChild] at hchild
  split_ifs at hchild with hselected
  have hkey : cutText c ∈ (segmentGroups n.snapshot (n.path p)
      fun path => filter.matches path.toList).keys := by
    refine mem_keys_segmentGroups.mpr ⟨symbol, ?_, c, hchild, rfl⟩
    obtain ⟨hiter, hshown⟩ := mem_filter.mp hmem
    exact mem_filter.mpr ⟨hiter, by rw [hshown, Bool.true_and]; exact hselected⟩
  have hnodes : (graphSections n.snapshot roots (n.path p) filter).nodes.map (·.identity) =
      (segmentGroups n.snapshot (n.path p) fun path => filter.matches path.toList).keys.map
        (scopedIdentity (n.path p)) := by
    rw [graphSections, identitySegmentsScoped, map_map, OrdMap.keys, map_map]
    rfl
  rw [hnodes, ← scopedIdentity_eq, ← cutText_eq (h.noSlash symbol hmem c hchild)]
  exact mem_map_of_mem hkey

theorem sum_intoPorts (ports : OrdMap (List Char) KindCount) :
    ((intoPorts ports).map (·.count)).sum = (ports.values.map (·.2)).sum := by
  rw [intoPorts, OrdMap.values, map_map, map_map]
  rfl

theorem sum_intoEdges (edges : OrdMap (List Char ×ₗ List Char) KindCount) :
    ((intoEdges edges).map (·.count)).sum = (edges.values.map (·.2)).sum := by
  rw [intoEdges, OrdMap.values, map_map, map_map]
  rfl

theorem mem_intoEdges {edges : OrdMap (List Char ×ₗ List Char) KindCount}
    {edge : IdentityGraphEdge} (h : edge ∈ intoEdges edges) : ∃ v,
      edges.get? (toLex (edge.source, edge.target)) = some v ∧ edge.count = v.2 := by
  obtain ⟨⟨k, v⟩, hentry, rfl⟩ := mem_map.mp h
  exact ⟨v, OrdMap.mem_entries.mp hentry, rfl⟩

/-- The count of an edge is positive, and counts the references between two children. -/
theorem edge_of_mem (h : PlainChildren n p) {edge : IdentityGraphEdge}
    (hmem : edge ∈ intoEdges (graphCounts n.snapshot (n.path p) filter).edges) :
    ∃ a b, edge.source = n.childPath p a ∧ edge.target = n.childPath p b ∧
      edge.count = referencesAs n p filter (.edge a b) ∧ 0 < edge.count := by
  obtain ⟨v, hget, hcount⟩ := mem_intoEdges hmem
  have hpos : 0 < edge.count := by
    rw [hcount]
    exact (positive_graphCounts n.snapshot (n.path p) filter).edges v
      (OrdMap.mem_values.mpr ⟨_, hget⟩)
  have hedge := (accounted_graphCounts n.snapshot (n.path p) filter).edge edge.source edge.target
  rw [hget, Option.map_some, Option.getD_some, ← hcount] at hedge
  obtain ⟨r, -, hr⟩ := countP_pos_iff.mp (hedge ▸ hpos)
  rw [decide_eq_true_eq, account_selectedSegment h] at hr
  cases haccount : account n.snapshot (selectedChild n p filter) r with
  | edge a b =>
    rw [haccount, Account.map] at hr
    obtain ⟨ha, hb⟩ := Account.edge.inj hr
    refine ⟨a, b, ha.symm, hb.symm, ?_, hpos⟩
    rw [hedge, ← ha, ← hb]
    exact accountOf_selectedSegment h (.edge a b)
  | _ =>
    rw [haccount] at hr
    cases hr

theorem mem_intoEdges_of_pos (h : PlainChildren n p) {a b : NamedSegment}
    (hpos : 0 < referencesAs n p filter (.edge a b)) :
    ∃ edge ∈ intoEdges (graphCounts n.snapshot (n.path p) filter).edges,
      edge.source = n.childPath p a ∧ edge.target = n.childPath p b := by
  have hedge := (accounted_graphCounts n.snapshot (n.path p) filter).edge
    (n.childPath p a) (n.childPath p b)
  rw [← accountOf_selectedSegment h, Account.map, ← hedge] at hpos
  cases hget : (graphCounts n.snapshot (n.path p) filter).edges.get?
      (toLex (n.childPath p a, n.childPath p b)) with
  | none =>
    rw [hget] at hpos
    exact absurd hpos (Nat.lt_irrefl 0)
  | some v =>
    exact ⟨_, mem_map.mpr ⟨_, OrdMap.mem_entries.mpr hget, rfl⟩, rfl, rfl⟩

/-- The graph of a scope of plain children. -/
theorem PlainChildren.graphExact (h : PlainChildren n p) (roots : List String) :
    GraphExact n p filter (graphSections n.snapshot roots (n.path p) filter)
      (graphCounts n.snapshot (n.path p) filter).unlinked := by
  have haccounted := accounted_graphCounts n.snapshot (n.path p) filter
  have hedges : ((intoEdges (graphCounts n.snapshot (n.path p) filter).edges).map
      (·.count)).sum = n.snapshot.references.iter.countP fun r =>
        (account n.snapshot (selectedChild n p filter) r).isEdge := by
    rw [sum_intoEdges, haccounted.edges]
    exact countP_congr fun r _ => by rw [isEdge_selectedSegment h]
  have hin : ((intoPorts (graphCounts n.snapshot (n.path p) filter).portsIn).map
      (·.count)).sum = referencesAs n p filter .inbound := by
    rw [sum_intoPorts, haccounted.portsIn]
    exact accountOf_selectedSegment h .inbound
  have hout : ((intoPorts (graphCounts n.snapshot (n.path p) filter).portsOut).map
      (·.count)).sum = referencesAs n p filter .outbound := by
    rw [sum_intoPorts, haccounted.portsOut]
    exact accountOf_selectedSegment h .outbound
  have hunlinked : (graphCounts n.snapshot (n.path p) filter).unlinked.total =
      referencesAs n p filter .unlinked := by
    rw [haccounted.unlinked.total]
    exact accountOf_selectedSegment h .unlinked
  refine ⟨fun edge hedge => edge_of_mem h hedge, fun a b hpos => mem_intoEdges_of_pos h hpos,
    fun edge hedge => ?_, ?_, hin, hout, hunlinked, ?_⟩
  · obtain ⟨a, b, hsource, htarget, hcount, hpos⟩ := edge_of_mem h hedge
    obtain ⟨r, -, hr⟩ := countP_pos_iff.mp (hcount ▸ hpos)
    rw [decide_eq_true_eq] at hr
    obtain ⟨x, hx, y, hy, hxshown, hyshown, hxa, hyb⟩ := exists_of_account_eq_edge _ _ hr
    rw [hsource, htarget]
    exact ⟨mem_nodes h (mem_filter.mpr ⟨hx, hxshown⟩) hxa,
      mem_nodes h (mem_filter.mpr ⟨hy, hyshown⟩) hyb⟩
  · have hkeys := (graphCounts n.snapshot (n.path p) filter).edges.nodup_keys
    have hpairs : (intoEdges (graphCounts n.snapshot (n.path p) filter).edges).map
        (fun edge => (edge.source, edge.target)) =
          (graphCounts n.snapshot (n.path p) filter).edges.keys.map ofLex := by
      rw [intoEdges, OrdMap.keys, map_map, map_map]
      rfl
    change ((intoEdges (graphCounts n.snapshot (n.path p) filter).edges).map
      fun edge => (edge.source, edge.target)).Nodup
    rw [hpairs]
    exact hkeys.map ofLex.injective
  · have htotal := countP_anchored n.snapshot (selectedChild n p filter) n.snapshot.references.iter
    rw [htotal]
    change _ = _ + ((intoEdges _).map (·.count)).sum + ((intoPorts _).map (·.count)).sum +
      ((intoPorts _).map (·.count)).sum + _ + _
    rw [hedges, hin, hout, hunlinked]
    unfold referencesAs
    omega

end GraphRows

/-! ## Answers -/

theorem items_of_pageRows {T : Type} {rows : List T} {limit : ℕ} {generation : Option ℕ}
    {paged : Paged T} (h : pageRows rows ⟨none, limit⟩ generation = .ok paged)
    (hnext : paged.nextCursor = none) : paged.items = rows := by
  obtain rfl := ok.inj h
  dsimp only at hnext
  split_ifs at hnext with hmore
  simp only [Option.map_none, Option.getD_none, Nat.zero_min, drop_zero, Nat.sub_zero] at *
  rw [take_of_length_le]
  omega

namespace IdentityGraphSections

theorem ofRows_rows (sections : IdentityGraphSections) : ofRows sections.rows = sections := by
  obtain ⟨nodes, edges, portsIn, portsOut⟩ := sections
  simp [ofRows, rows, filterMap_append, filterMap_map]

/-- Every row has a reference, so that a bound of one leaves out nothing. -/
theorem admitted_graphSections {crate : RegexCrate} (s : IdentitySnapshot) (roots : List String)
    (scope : List Char) (filter : FilePathFilter crate) {minCount : ℕ} (hmin : minCount ≤ 1) :
    (graphSections s roots scope filter).admitted minCount =
      graphSections s roots scope filter := by
  obtain ⟨hedges, hin, hout⟩ := positive_graphCounts s scope filter
  have hports : ∀ ports : OrdMap (List Char) KindCount, (∀ v ∈ ports.values, 0 < v.2) →
      (intoPorts ports).filter (minCount ≤ ·.count) = intoPorts ports := by
    intro ports hpos
    refine filter_eq_self.mpr fun port hport => ?_
    obtain ⟨e, he, rfl⟩ := mem_map.mp hport
    have hcount := hpos e.2 (mem_map_of_mem he)
    exact decide_eq_true (by dsimp only; omega)
  have hedge : (intoEdges (graphCounts s scope filter).edges).filter (minCount ≤ ·.count) =
      intoEdges (graphCounts s scope filter).edges := by
    refine filter_eq_self.mpr fun edge hmem => ?_
    obtain ⟨v, hget, hcount⟩ := mem_intoEdges hmem
    have hpos := hedges v (OrdMap.mem_values.mpr ⟨_, hget⟩)
    exact decide_eq_true (by omega)
  simp only [admitted, graphSections, hedge, hports _ hin, hports _ hout]

end IdentityGraphSections

section Answers

variable {n : NamedSnapshot} {p : List NamedSegment} {text : List Char}

/-- The whole answer of a graph query. -/
theorem sections_of_identityGraphResponse {crate : RegexCrate} {s : IdentitySnapshot}
    {roots : List String} {query : IdentityGraphQuery} {limit : ℕ} {generation : Option ℕ}
    {result : IdentityGraphResult} (hmin : query.minCount ≤ 1)
    (h : identityGraphResponse crate s roots query ⟨none, limit⟩ generation = .ok result)
    (hnext : result.nextCursor = none) : ∃ filter : FilePathFilter crate,
      FilePathFilter.compile crate query.path = .ok filter ∧
        result.sections = graphSections s roots (scopeOf query.prefix_) filter ∧
          result.unlinked = (graphCounts s (scopeOf query.prefix_) filter).unlinked := by
  unfold identityGraphResponse at h
  obtain ⟨-, -, h⟩ := bind_eq_ok.mp h
  obtain ⟨filter, hfilter, h⟩ := bind_eq_ok.mp h
  have hpage : ∃ graph, pageIdentityGraph (graphSections s roots (scopeOf query.prefix_) filter)
      query.minCount ⟨none, limit⟩ generation = .ok graph ∧ result.sections = graph.sections ∧
        result.unlinked = (graphCounts s (scopeOf query.prefix_) filter).unlinked ∧
          result.nextCursor = graph.nextCursor := by
    dsimp only at h
    split_ifs at h
    · obtain ⟨-, -, h⟩ := bind_eq_ok.mp h
      obtain ⟨graph, hgraph, h⟩ := bind_eq_ok.mp h
      obtain rfl := ok.inj h
      exact ⟨graph, mapError_eq_ok.mp hgraph, rfl, rfl, rfl⟩
    · obtain ⟨graph, hgraph, h⟩ := bind_eq_ok.mp h
      obtain rfl := ok.inj h
      exact ⟨graph, mapError_eq_ok.mp hgraph, rfl, rfl, rfl⟩
  obtain ⟨graph, hgraph, hsections, hunlinked, hcursor⟩ := hpage
  refine ⟨filter, Stop.mapError_eq_ok.mp hfilter, ?_, hunlinked⟩
  obtain ⟨paged, hpaged, hgraph⟩ := bind_eq_ok.mp hgraph
  obtain rfl := ok.inj hgraph
  rw [hsections, items_of_pageRows hpaged (hcursor.symm.trans hnext),
    IdentityGraphSections.ofRows_rows, IdentityGraphSections.admitted_graphSections _ _ _ _ hmin]

theorem children_of_identityChildrenResponse {s : IdentitySnapshot} {roots : List String}
    {query : IdentityChildrenQuery} {result : IdentityChildrenResult}
    (h : identityChildrenResponse s roots query = .ok result) (hlimit : result.total ≤ query.limit) :
    result.children = identitySegments s roots (scopeOf query.prefix_) := by
  unfold identityChildrenResponse at h
  obtain ⟨-, -, h⟩ := bind_eq_ok.mp h
  dsimp only at h
  split_ifs at h
  · obtain ⟨-, -, h⟩ := bind_eq_ok.mp h
    obtain rfl := ok.inj h
    exact take_of_length_le hlimit
  · obtain rfl := ok.inj h
    exact take_of_length_le hlimit

/-- A scope with children is answered. -/
theorem identityChildrenResponse_eq (s : IdentitySnapshot) (text : List Char)
    (h : identitySegments s [] (scopeOf text) ≠ []) : identityChildrenResponse s []
        ⟨none, text, (identitySegments s [] (scopeOf text)).length⟩ =
      .ok ⟨scopeOf text, (identitySegments s [] (scopeOf text)).length,
        identitySegments s [] (scopeOf text)⟩ := by
  unfold identityChildrenResponse
  simp only [selectedRoots, ok_bind, if_neg h]
  rw [take_length]
  rfl

theorem plainChildren_of_nil {roots : List String}
    (h : identitySegments n.snapshot roots (n.path p) = []) : PlainChildren n p := by
  have hnone : ∀ symbol ∈ shownSymbols n, ∀ c, n.child p symbol ≠ some c := by
    intro symbol hmem c hchild
    have hkey : cutText c ∈ (segmentGroups n.snapshot (n.path p) fun _ => true).keys := by
      rw [mem_keys_segmentGroups, selectedSymbols_all]
      exact ⟨symbol, hmem, c, hchild, rfl⟩
    rw [← map_segment_identitySegmentsScoped roots, ← identitySegments, h] at hkey
    exact nomatch hkey
  refine ⟨fun symbol hmem c hchild => absurd hchild (hnone symbol hmem c),
    fun c x hx y _ hplace => ?_⟩
  exact absurd ((n.child_eq_some p).mpr ⟨[], hplace⟩) (hnone x hx c)

/-- The two queries are exact for a scope exactly if its names have no `/` and no two symbols that
are shown are the same child of it. -/
theorem rollups_exact_iff (n : NamedSnapshot) (p : List NamedSegment) (text : List Char)
    (hscope : scopeOf text = n.path p) : RollupsExact n p text ↔ PlainChildren n p := by
  constructor
  · intro h
    by_cases hnil : identitySegments n.snapshot [] (n.path p) = []
    · exact plainChildren_of_nil hnil
    · rw [← hscope] at hnil
      have hexact := h.children [] none _ _ (identityChildrenResponse_eq n.snapshot text hnil)
        (le_refl _)
      rw [hscope] at hexact
      exact hexact.plain
  · intro h
    refine ⟨fun roots workspace limit result hresult hlimit => ?_,
      fun crate roots query limit generation result hprefix hmin hresult hnext => ?_⟩
    · rw [children_of_identityChildrenResponse hresult hlimit]
      dsimp only
      rw [hscope]
      exact h.childrenExact roots
    · obtain ⟨filter, hfilter, hsections, hunlinked⟩ :=
        sections_of_identityGraphResponse hmin hresult hnext
      refine ⟨filter, hfilter, ?_⟩
      rw [hsections, hunlinked, hprefix, hscope]
      exact h.graphExact roots

end Answers

/-- The segment of a kind and a name, both short. -/
def namedSegment (kind name : String) (h : (segmentOf (kind, name)).Admitted) : NamedSegment :=
  ⟨segmentOf (kind, name), h⟩

/-- A file with one class. -/
def oneClass (identity : String) : IdentitySnapshot where
  symbols :=
    { shards := [[coupledClass 0 identity]]
      placed := by
        intro f d s h
        match f, d, h with
        | 0, 0, h => obtain rfl := Option.some.inj h; simp [coupledClass] }
  sources := [⟨0, "a/A.java", "java"⟩]
  references := ⟨[[]], by decide⟩
  linkage := ⟨[], [], [], [], [], [], by decide⟩
  origin _ := .unknownExternal
  readIndex := none
  parentsFirst := by simp [SymbolTable.iter, coupledClass]
  sourceFile := by simp [ReferenceTable.iter]
  sourced := rfl
  indexed := by simp

def dotProject : Project := ⟨byteString ".", admitted_dot⟩

def NamedSnapshot.oneClass (identity : String) (place : List NamedSegment)
    (h : identity = monikerUri defaultScheme (monikerOf dotProject place)) : NamedSnapshot where
  snapshot := CodeMoniker.oneClass identity
  project := dotProject
  place _ := place
  named symbol hmem := by
    obtain rfl := List.mem_singleton.mp hmem
    exact h

def plainPlace : List NamedSegment :=
  [namedSegment "dir" "a" (by decide), namedSegment "class" "A" (by decide)]

theorem rollups_exact_plainPlace : RollupsExact
    (.oneClass "code+moniker://./dir:a/class:A" plainPlace (by decide +kernel))
      (plainPlace.take 1) "dir:a/".toList := by
  refine (rollups_exact_iff _ _ _ (by decide)).mpr ⟨?_, ?_⟩
  · intro symbol _ c hchild
    obtain ⟨more, hplace⟩ := (NamedSnapshot.child_eq_some _ _).mp hchild
    obtain ⟨rfl, -⟩ := List.cons.inj (List.cons.inj hplace).2
    decide
  · intro c x hx y hy _ _
    have hone : ∀ z ∈ (oneClass "code+moniker://./dir:a/class:A").symbols.iter,
        z = coupledClass 0 "code+moniker://./dir:a/class:A" := fun z hz => List.mem_singleton.mp hz
    rw [hone x (mem_filter.mp hx).1, hone y (mem_filter.mp hy).1]

def slashPlace : List NamedSegment := [namedSegment "module" "a/b" (by decide)]

def slashSnapshot : NamedSnapshot :=
  .oneClass "code+moniker://./module:`a/b`" slashPlace (by decide +kernel)

/-- A module `a/b` is shown as a child of half its name. -/
theorem rollups_cut_names : ¬RollupsExact slashSnapshot [] [] := by
  intro h
  have hanswer : ∃ result, identityChildrenResponse slashSnapshot.snapshot [] ⟨none, [], 9⟩ =
      .ok result ∧ result.total = 1 ∧
        result.children.map (·.segment) = ["module:`a".toList] :=
    ⟨_, rfl, by decide, by decide⟩
  obtain ⟨result, hresult, htotal, hsegments⟩ := hanswer
  have hexact := h.children [] none 9 result hresult (by omega)
  obtain ⟨symbol, -, c, hchild, htext⟩ :=
    (hexact.segments "module:`a".toList).mp (by rw [hsegments]; exact List.mem_singleton_self _)
  obtain ⟨more, hplace⟩ := (slashSnapshot.child_eq_some []).mp hchild
  obtain rfl : c = namedSegment "module" "a/b" (by decide) := (List.cons.inj hplace).1.symm
  exact absurd htext (by decide)

end CodeMoniker
