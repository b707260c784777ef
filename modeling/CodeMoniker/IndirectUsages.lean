import CodeMoniker.SymbolRecords
import CodeMoniker.UsagePages

/-!
# Incoming usages

The incoming usages of a symbol are the references to it, and the references to the type
symbols that use it, that use one of these, and so on, at most four steps away. The search
goes depth first and marks the users of a symbol when it comes to it (`takeUnvisited`). A
symbol that is first met four steps away is not searched further, although it may also be
nearer : its own users are then missed.

Whatever is returned is such a usage, and once. A user is found when none of the symbols on the
way to it also ends a chain of four steps on which no symbol uses an earlier one (`EndsFour`,
`collectIncomingUsages_spec`).
-/

namespace CodeMoniker

open List Option Query

/-! ## The snapshot -/

/-- The largest number of 32 bits, of the parts of an id. -/
def maxU32 : ℕ := 2 ^ 32 - 1

namespace ReferenceId

def text (id : ReferenceId) : List Char :=
  "reference:".toList ++ formatNat id.file ++ ':' :: formatNat id.reference

def parse (value : List Char) : Option ReferenceId := do
  let rest ← stripPrefix "reference:".toList value
  let (file, reference) ← splitOnce ':' rest
  return ⟨← parseUnsigned maxU32 file, ← parseUnsigned maxU32 reference⟩

theorem parse_text {id : ReferenceId} (hfile : id.file ≤ maxU32) (hreference : id.reference ≤ maxU32) :
    parse id.text = some id := by
  have hstrip : stripPrefix "reference:".toList id.text =
      some (formatNat id.file ++ ':' :: formatNat id.reference) := by
    unfold stripPrefix text
    rw [append_assoc, if_pos (List.isPrefixOf_iff_prefix.mpr (prefix_append _ _)), drop_left]
  rw [parse, hstrip]
  simp only [bind_eq_bind, bind_some,
    splitOnce_append (separator_notMem_formatNat id.file), parseUnsigned_formatNat hfile,
    parseUnsigned_formatNat hreference]
  rfl

end ReferenceId

def SymbolId.text (id : SymbolId) : List Char :=
  "symbol:".toList ++ formatNat id.file ++ ':' :: formatNat id.defIdx

/-- What the usages are read from. The numbers of an id have 32 bits, and the read index is the
one of the linkage. -/
structure UsageSnapshot where
  symbols : List SymbolRecord
  references : ReferenceTable
  source : ReferenceId → Option SourceFileRecord
  lineRange : ReferenceId → Option (ℕ × ℕ)
  linkage : LinkageSnapshot
  readIndex : Option LinkageReadIndex
  bounded : ∀ r ∈ references.iter, r.id.file ≤ maxU32 ∧ r.id.reference ≤ maxU32
  indexed : ∀ index ∈ readIndex, ∃ catalog roots,
    index = .fromSnapshotWithCatalog linkage references catalog roots

/-- Which rows are selected. The path filter is compiled from globs. -/
structure UsageDtoContext where
  roots : List String
  selectedRoots : List String
  pathFilter : String → Bool
  langs : List String

def LinkageReadIndex.incoming (index : LinkageReadIndex) (symbol : SymbolId) : List ReferenceId :=
  match index.ordinal symbol with
  | none => []
  | some o => ((index.incomingPostings o []).foldl (· ∪ ·) ∅).elems.filterMap index.referenceId

namespace UsageSnapshot

variable (s : UsageSnapshot)

def symbol (id : SymbolId) : Option SymbolRecord := s.symbols.find? (·.id = id)

def incomingIds (symbol : SymbolId) : List ReferenceId :=
  match s.readIndex with
  | some index => index.incoming symbol
  | none => (s.linkage.resolved.filter (·.target = symbol)).map (·.reference)

/-- The records of the references to a symbol. -/
def incoming (symbol : SymbolId) : List ReferenceRecord :=
  (s.incomingIds symbol).filterMap s.references.reference

end UsageSnapshot

/-! ## Rows -/

def memorySourceRoot : String := "memory"

def memorySourceRootLabel : String := "memory"

def sourceRoot (roots selectedRoots : List String) (source : SourceFileRecord) : Option String :=
  match roots[source.sourceRoot]? with
  | none =>
    if source.sourceRoot = roots.length ∧ selectedRoots.length = roots.length then
      some memorySourceRoot
    else none
  | some root => if root ∈ selectedRoots then some root else none

def sourceRootLabel (roots : List String) (source : SourceFileRecord) : String :=
  if source.sourceRoot = roots.length then memorySourceRootLabel
  else (roots[source.sourceRoot]?).getD ""

section Rows

variable (s : UsageSnapshot) (context : UsageDtoContext)

def usageDto (reference : ReferenceRecord) (direction : UsageDirection) : Option UsageDto := do
  let source ← s.source reference.id
  let _ ← sourceRoot context.roots context.selectedRoots source
  let symbol := s.symbol reference.sourceSymbol
  let id := String.ofList reference.sourceSymbol.text
  if ¬context.pathFilter source.relPath ∨ context.langs ≠ [] ∧ source.language ∉ context.langs then
    none
  else some {
    root := sourceRootLabel context.roots source
    direction := direction
    reference := String.ofList reference.id.text
    kind := reference.kind
    actor := (symbol.map (·.name)).getD id
    context := (symbol.map (·.identity)).getD id
    endpoint := reference.targetIdentity
    file := source.relPath
    lineRange := s.lineRange reference.id
    via := none }

/-! ## The search -/

structure IndirectUsageState where
  visited : Finset SymbolId
  seen : Finset ReferenceId
  rows : List UsageDto

def maxIndirectUsageDepth : ℕ := 4

variable (target : SymbolId)

/-- The type symbols that use a symbol, in the order of their references. -/
def typeUsers : List SymbolRecord :=
  (((s.incoming target).filter (·.kind = "uses_type")).filterMap
    fun r => s.symbol r.sourceSymbol).filter (·.kind = "type")

/-- The symbols that are not visited yet. They are now. -/
def takeUnvisited (visited : Finset SymbolId) :
    List SymbolRecord → List SymbolRecord × Finset SymbolId
  | [] => ([], visited)
  | symbol :: rest =>
    if symbol.id ∈ visited then takeUnvisited visited rest
    else
      let (symbols, visited) := takeUnvisited (insert symbol.id visited) rest
      (symbol :: symbols, visited)

/-- A reference to an alias, unless it was seen or comes from the alias itself. -/
def collectUsageVia (via : SymbolRecord) (state : IndirectUsageState) (reference : ReferenceRecord) :
    IndirectUsageState :=
  if reference.sourceSymbol = via.id ∨ reference.id ∈ state.seen then state
  else
    let state := { state with seen := insert reference.id state.seen }
    match usageDto s context reference .incoming with
    | none => state
    | some row =>
      { state with
        rows := state.rows ++ [{ row with via := some s!"{via.name} ({via.identity})" }] }

def collectDirectUsagesVia (via : SymbolRecord) (state : IndirectUsageState) :
    IndirectUsageState :=
  (s.incoming via.id).foldl (collectUsageVia s context via) state

/-- The search from a symbol, with the depth that remains. -/
def collectIndirectIncomingUsages : ℕ → SymbolId → IndirectUsageState → IndirectUsageState
  | 0, _, state => state
  | remaining + 1, target, state =>
    let (aliases, visited) := takeUnvisited state.visited (typeUsers s target)
    aliases.foldl (fun state via =>
      collectIndirectIncomingUsages remaining via.id
        (collectDirectUsagesVia s context via state)) { state with visited := visited }

/-- The rows of the references to the target, from which the search starts. -/
def directUsages : IndirectUsageState :=
  let rows := (s.incoming target).filterMap fun r => usageDto s context r .incoming
  let seen := (rows.filterMap fun row => ReferenceId.parse row.reference.toList).toFinset
  ⟨{target}, seen, rows⟩

def collectIncomingUsages : List UsageDto :=
  (collectIndirectIncomingUsages s context maxIndirectUsageDepth target
    (directUsages s context target)).rows

end Rows

/-! ## What the usages are -/

section Usages

variable (s : UsageSnapshot)

/-- `x` is a type symbol with a `uses_type` reference to `y`. -/
def UsesType (x y : SymbolId) : Prop :=
  ∃ r ∈ s.incoming y, r.kind = "uses_type" ∧ r.sourceSymbol = x ∧
    ∃ symbol, s.symbol x = some symbol ∧ symbol.kind = "type"

variable (target : SymbolId)

/-- The symbols that lead to the target by a chain of uses. -/
inductive Reaches : ℕ → SymbolId → Prop
  | zero : Reaches 0 target
  | step {n : ℕ} {x y : SymbolId} : Reaches n y → UsesType s x y → Reaches (n + 1) x

/-- A usage of the target : a reference to it, or to a type symbol at most four steps away,
unless that symbol refers to itself. -/
def IsUsage (r : ReferenceRecord) : Prop :=
  r ∈ s.incoming target ∨ ∃ n x, 1 ≤ n ∧ n ≤ maxIndirectUsageDepth ∧ Reaches s target n x ∧
    r ∈ s.incoming x ∧ r.sourceSymbol ≠ x

/-- A simple chain of uses, the last symbol first, on which no symbol uses an earlier one than
the one before it. -/
inductive ChordlessChain : List SymbolId → Prop
  | target : ChordlessChain [target]
  | step {x y : SymbolId} {rest : List SymbolId} : ChordlessChain (y :: rest) → UsesType s x y →
      x ∉ y :: rest → (∀ z ∈ rest, ¬UsesType s x z) → ChordlessChain (x :: y :: rest)

/-- The symbol ends such a chain of four uses. -/
def EndsFour (x : SymbolId) : Prop :=
  ∃ rest, ChordlessChain s target (x :: rest) ∧ rest.length = maxIndirectUsageDepth

/-- The symbols that lead to the target by a chain of uses of symbols that do not end a chordless
chain of four uses. -/
inductive ReachesUncut : ℕ → SymbolId → Prop
  | zero : ReachesUncut 0 target
  | step {n : ℕ} {x y : SymbolId} : ReachesUncut n y → ¬EndsFour s target y → UsesType s x y →
      ReachesUncut (n + 1) x

variable {s target}

theorem mem_typeUsers_iff {x y : SymbolId} :
    (∃ symbol ∈ typeUsers s y, symbol.id = x) ↔ UsesType s x y := by
  unfold typeUsers UsesType
  simp only [mem_filter, mem_filterMap, decide_eq_true_eq]
  constructor
  · rintro ⟨symbol, ⟨⟨r, ⟨hr, hkind⟩, hsymbol⟩, htype⟩, rfl⟩
    have hid : symbol.id = r.sourceSymbol := by simpa using find?_some hsymbol
    exact ⟨r, hr, hkind, hid.symm, symbol, hid ▸ hsymbol, htype⟩
  · rintro ⟨r, hr, hkind, rfl, symbol, hsymbol, htype⟩
    have hid : symbol.id = r.sourceSymbol := by simpa using find?_some hsymbol
    exact ⟨symbol, ⟨⟨r, ⟨hr, hkind⟩, hsymbol⟩, htype⟩, hid⟩

theorem ChordlessChain.reaches {x : SymbolId} {rest : List SymbolId}
    (h : ChordlessChain s target (x :: rest)) : Reaches s target rest.length x := by
  generalize hchain : x :: rest = chain at h
  induction h generalizing x rest with
  | target =>
    obtain ⟨rfl, rfl⟩ := cons.inj hchain
    exact .zero
  | step _ huses _ _ ih =>
    obtain ⟨rfl, rfl⟩ := cons.inj hchain
    exact .step (ih rfl) huses

end Usages

/-! ## Rows and references -/

open UsageSnapshot

section Invariant

variable {s : UsageSnapshot} {context : UsageDtoContext} {target : SymbolId}

theorem UsageSnapshot.mem_iter_of_mem_incoming {r : ReferenceRecord} {x : SymbolId}
    (h : r ∈ s.incoming x) : r ∈ s.references.iter := by
  obtain ⟨id, -, hid⟩ := mem_filterMap.mp h
  exact (ReferenceTable.reference_eq_some hid).1

theorem UsageSnapshot.incomingIds_nodup (x : SymbolId) : (s.incomingIds x).Nodup := by
  unfold incomingIds
  split
  · next index hindex =>
    obtain ⟨catalog, roots, rfl⟩ := s.indexed index hindex
    unfold LinkageReadIndex.incoming
    split
    · exact nodup_nil
    · refine Nodup.filterMap (fun i j id hi hj => ?_) (OrdSet.nodup _)
      have hids : (s.references.iter.map (·.id)).Nodup := s.references.ids_nodup
      have hi' : (s.references.iter.map (·.id))[i]? = some id := hi
      have hj' : (s.references.iter.map (·.id))[j]? = some id := hj
      obtain ⟨hlt, -⟩ := List.getElem?_eq_some_iff.mp hi'
      exact (getElem?_inj hlt hids).mp (hi'.trans hj'.symm)
  · exact (s.linkage.resolved_nodup.sublist ((filter_sublist).map _))

/-- The references to a symbol are different. -/
theorem UsageSnapshot.incoming_nodup (x : SymbolId) : ((s.incoming x).map (·.id)).Nodup := by
  have hmap : ((s.incoming x).map (·.id)).Sublist (s.incomingIds x) := by
    unfold incoming
    induction s.incomingIds x with
    | nil => exact Sublist.slnil
    | cons id ids ih =>
      cases hid : s.references.reference id with
      | none =>
        rw [filterMap_cons_none hid]
        exact ih.cons id
      | some r =>
        rw [filterMap_cons_some hid, map_cons, (ReferenceTable.reference_eq_some hid).2]
        exact ih.cons_cons id
  exact (s.incomingIds_nodup x).sublist hmap

theorem ReferenceId.eq_of_text_eq {r r' : ReferenceRecord} (hr : r ∈ s.references.iter)
    (hr' : r' ∈ s.references.iter) (h : r.id.text = r'.id.text) : r.id = r'.id := by
  obtain ⟨hfile, hreference⟩ := s.bounded r hr
  obtain ⟨hfile', hreference'⟩ := s.bounded r' hr'
  have hparse := ReferenceId.parse_text hfile hreference
  rw [h, ReferenceId.parse_text hfile' hreference'] at hparse
  exact (some.inj hparse).symm

theorem reference_of_usageDto {r : ReferenceRecord} {direction : UsageDirection} {row : UsageDto}
    (h : usageDto s context r direction = some row) : row.reference = String.ofList r.id.text := by
  unfold usageDto at h
  simp only [bind_eq_bind, bind_eq_some_iff] at h
  obtain ⟨source, -, root, -, h⟩ := h
  split_ifs at h
  rw [← some.inj h]

/-- The rows are the rows of the seen references, once for each. -/
structure RowsOf (s : UsageSnapshot) (context : UsageDtoContext) (target : SymbolId)
    (state : IndirectUsageState) : Prop where
  once : (state.rows.map (·.reference)).Nodup
  sound : ∀ row ∈ state.rows, ∃ r ∈ s.references.iter, r.id ∈ state.seen ∧ IsUsage s target r ∧
    (usageDto s context r .incoming).isSome ∧ row.reference = String.ofList r.id.text
  complete : ∀ r ∈ s.references.iter, r.id ∈ state.seen → (usageDto s context r .incoming).isSome →
    ∃ row ∈ state.rows, row.reference = String.ofList r.id.text

/-- What a step adds to what was visited and seen. -/
structure Extends (state state' : IndirectUsageState) : Prop where
  visited : state.visited ⊆ state'.visited
  seen : state.seen ⊆ state'.seen

theorem Extends.trans {a b c : IndirectUsageState} (h : Extends a b) (h' : Extends b c) :
    Extends a c :=
  ⟨h.visited.trans h'.visited, h.seen.trans h'.seen⟩

/-! ## The references to one alias -/

variable {via : SymbolRecord} {state : IndirectUsageState} {r : ReferenceRecord}

@[simp] theorem visited_collectUsageVia :
    (collectUsageVia s context via state r).visited = state.visited := by
  unfold collectUsageVia
  split_ifs
  · rfl
  · cases usageDto s context r .incoming <;> rfl

theorem seen_collectUsageVia (h : ¬(r.sourceSymbol = via.id ∨ r.id ∈ state.seen)) :
    (collectUsageVia s context via state r).seen = insert r.id state.seen := by
  unfold collectUsageVia
  rw [if_neg h]
  cases usageDto s context r .incoming <;> rfl

theorem extends_collectUsageVia : Extends state (collectUsageVia s context via state r) := by
  refine ⟨visited_collectUsageVia.ge, ?_⟩
  by_cases h : r.sourceSymbol = via.id ∨ r.id ∈ state.seen
  · unfold collectUsageVia
    rw [if_pos h]
  · rw [seen_collectUsageVia h]
    exact Finset.subset_insert _ _

theorem mem_seen_collectUsageVia (h : r.sourceSymbol ≠ via.id) :
    r.id ∈ (collectUsageVia s context via state r).seen := by
  by_cases hseen : r.id ∈ state.seen
  · exact extends_collectUsageVia.seen hseen
  · rw [seen_collectUsageVia (not_or.mpr ⟨h, hseen⟩)]
    exact Finset.mem_insert_self _ _

theorem RowsOf.collect (h : RowsOf s context target state) (hr : r ∈ s.references.iter)
    (husage : r.sourceSymbol ≠ via.id → IsUsage s target r) :
    RowsOf s context target (collectUsageVia s context via state r) := by
  unfold collectUsageVia
  split_ifs with hskip
  · exact h
  obtain ⟨hsource, hnew⟩ := not_or.mp hskip
  have hold : ∀ r' ∈ s.references.iter, r'.id ∈ insert r.id state.seen → r' = r ∨ r'.id ∈ state.seen := by
    intro r' hr' hseen
    rcases Finset.mem_insert.mp hseen with hid | hseen
    · exact Or.inl (ReferenceTable.eq_of_id_eq hr' hr hid)
    · exact Or.inr hseen
  cases hrow : usageDto s context r .incoming with
  | none =>
    refine ⟨h.once, fun row hrow' => ?_, fun r' hr' hseen hsome => ?_⟩
    · obtain ⟨r', hr', hseen, hrest⟩ := h.sound row hrow'
      exact ⟨r', hr', Finset.mem_insert_of_mem hseen, hrest⟩
    · rcases hold r' hr' hseen with rfl | hseen
      · rw [hrow] at hsome
        cases hsome
      · exact h.complete r' hr' hseen hsome
  | some row =>
    have hreference : row.reference = String.ofList r.id.text := reference_of_usageDto hrow
    refine ⟨?_, fun row' hrow' => ?_, fun r' hr' hseen hsome => ?_⟩
    · rw [map_append, nodup_append]
      refine ⟨h.once, nodup_singleton _, ?_⟩
      intro a ha b hb hab
      obtain ⟨row', hrow', rfl⟩ := List.mem_map.mp ha
      obtain ⟨r', hr', hseen, -, -, hreference'⟩ := h.sound row' hrow'
      obtain rfl : b = row.reference := by simpa using hb
      rw [hreference', hreference] at hab
      have htext := congrArg String.toList hab
      rw [String.toList_ofList, String.toList_ofList] at htext
      exact hnew (ReferenceId.eq_of_text_eq hr' hr htext ▸ hseen)
    · rcases mem_append.mp hrow' with hrow' | hrow'
      · obtain ⟨r', hr', hseen, hrest⟩ := h.sound row' hrow'
        exact ⟨r', hr', Finset.mem_insert_of_mem hseen, hrest⟩
      · obtain rfl := mem_singleton.mp hrow'
        exact ⟨r, hr, Finset.mem_insert_self _ _, husage hsource, by rw [hrow]; rfl, hreference⟩
    · rcases hold r' hr' hseen with rfl | hseen
      · exact ⟨_, mem_append_right _ (mem_singleton_self _), hreference⟩
      · obtain ⟨row', hrow', hrow'_reference⟩ := h.complete r' hr' hseen hsome
        exact ⟨row', mem_append_left _ hrow', hrow'_reference⟩

/-- All references of a list are collected. -/
theorem rowsOf_foldl : ∀ {references : List ReferenceRecord}
    {state : IndirectUsageState}, RowsOf s context target state →
    (∀ r ∈ references, r ∈ s.references.iter ∧ (r.sourceSymbol ≠ via.id → IsUsage s target r)) →
    RowsOf s context target (references.foldl (collectUsageVia s context via) state) ∧
    (references.foldl (collectUsageVia s context via) state).visited = state.visited ∧
    Extends state (references.foldl (collectUsageVia s context via) state) ∧
    ∀ r ∈ references, r.sourceSymbol ≠ via.id →
      r.id ∈ (references.foldl (collectUsageVia s context via) state).seen
  | [], state, h, _ => ⟨h, rfl, ⟨subset_rfl, subset_rfl⟩, fun _ hr => nomatch hr⟩
  | first :: rest, state, h, hall => by
    obtain ⟨hfirst, husage⟩ := hall first mem_cons_self
    obtain ⟨hrows, hvisited, hextends, hseen⟩ := rowsOf_foldl
      (h.collect hfirst husage) fun r hr => hall r (mem_cons_of_mem first hr)
    refine ⟨hrows, hvisited.trans visited_collectUsageVia,
      extends_collectUsageVia.trans hextends, fun r hr hsource => ?_⟩
    rcases mem_cons.mp hr with rfl | hr
    · exact hextends.seen (mem_seen_collectUsageVia hsource)
    · exact hseen r hr hsource

/-! ## The search -/

/-- The references to a symbol are seen, except its own. -/
def Collected (s : UsageSnapshot) (state : IndirectUsageState) (x : SymbolId) : Prop :=
  ∀ r ∈ s.incoming x, r.sourceSymbol ≠ x → r.id ∈ state.seen

/-- The search is done with a symbol : its references are seen, and its users are visited unless
it was met four steps away. -/
structure Done (s : UsageSnapshot) (target : SymbolId) (state : IndirectUsageState)
    (x : SymbolId) : Prop where
  collected : Collected s state x
  expanded : (∀ u, UsesType s u x → u ∈ state.visited) ∨ EndsFour s target x

theorem Done.mono {state' : IndirectUsageState} {x : SymbolId} (h : Done s target state x)
    (hextends : Extends state state') : Done s target state' x :=
  ⟨fun r hr hsource => hextends.seen (h.collected r hr hsource),
    h.expanded.imp_left fun hall u hu => hextends.visited (hall u hu)⟩

/-- The search goes from one state to another, and is done with the symbols that are new. -/
structure Explores (s : UsageSnapshot) (target : SymbolId) (state state' : IndirectUsageState) :
    Prop extends Extends state state' where
  done : ∀ x ∈ state'.visited, x ∉ state.visited → Done s target state' x

theorem Explores.trans {a b c : IndirectUsageState} (h : Explores s target a b)
    (h' : Explores s target b c) : Explores s target a c where
  toExtends := h.toExtends.trans h'.toExtends
  done x hx hnew := by
    by_cases hb : x ∈ b.visited
    · exact (h.done x hb hnew).mono h'.toExtends
    · exact h'.done x hx hb

theorem takeUnvisited_spec : ∀ {visited : Finset SymbolId} {symbols : List SymbolRecord},
    visited ⊆ (takeUnvisited visited symbols).2 ∧
    (∀ symbol ∈ symbols, symbol.id ∈ (takeUnvisited visited symbols).2) ∧
    (∀ symbol ∈ (takeUnvisited visited symbols).1, symbol ∈ symbols ∧ symbol.id ∉ visited) ∧
    ∀ x ∈ (takeUnvisited visited symbols).2, x ∈ visited ∨
      ∃ symbol ∈ (takeUnvisited visited symbols).1, symbol.id = x
  | _, [] => ⟨subset_rfl, fun _ h => (nomatch h), fun _ h => (nomatch h), fun _ h => Or.inl h⟩
  | visited, symbol :: rest => by
    rw [takeUnvisited]
    split_ifs with hvisited
    · obtain ⟨hsub, hmarked, hnew, hcases⟩ := @takeUnvisited_spec visited rest
      refine ⟨hsub, fun u hu => ?_, fun u hu => ?_, hcases⟩
      · rcases mem_cons.mp hu with rfl | hu
        · exact hsub hvisited
        · exact hmarked u hu
      · exact ⟨mem_cons_of_mem symbol (hnew u hu).1, (hnew u hu).2⟩
    · obtain ⟨hsub, hmarked, hnew, hcases⟩ := @takeUnvisited_spec (insert symbol.id visited) rest
      refine ⟨(Finset.subset_insert _ _).trans hsub, fun u hu => ?_, fun u hu => ?_, fun x hx => ?_⟩
      · rcases mem_cons.mp hu with rfl | hu
        · exact hsub (Finset.mem_insert_self _ _)
        · exact hmarked u hu
      · rcases mem_cons.mp hu with rfl | hu
        · exact ⟨mem_cons_self, hvisited⟩
        · obtain ⟨hmem, hnotMem⟩ := hnew u hu
          exact ⟨mem_cons_of_mem symbol hmem, fun h => hnotMem (Finset.mem_insert_of_mem h)⟩
      · rcases hcases x hx with hx | ⟨u, hu, rfl⟩
        · rcases Finset.mem_insert.mp hx with rfl | hx
          · exact Or.inr ⟨symbol, mem_cons_self, rfl⟩
          · exact Or.inl hx
        · exact Or.inr ⟨u, mem_cons_of_mem symbol hu, rfl⟩

/-- The references to an alias that was just met. -/
theorem rowsOf_collectDirectUsagesVia {n : ℕ} (h : RowsOf s context target state) (hpos : 1 ≤ n)
    (hn : n ≤ maxIndirectUsageDepth) (hreaches : Reaches s target n via.id) :
    RowsOf s context target (collectDirectUsagesVia s context via state) ∧
    (collectDirectUsagesVia s context via state).visited = state.visited ∧
    Extends state (collectDirectUsagesVia s context via state) ∧
    Collected s (collectDirectUsagesVia s context via state) via.id :=
  rowsOf_foldl h fun _ hr => ⟨mem_iter_of_mem_incoming hr,
    fun hsource => Or.inr ⟨n, via.id, hpos, hn, hreaches, hr, hsource⟩⟩

/-- What is known when the search comes to the first symbol of a chain : the chain is visited, and
the users of its other symbols are. -/
structure OnChain (s : UsageSnapshot) (context : UsageDtoContext) (target : SymbolId)
    (chain : List SymbolId) (state : IndirectUsageState) : Prop where
  rows : RowsOf s context target state
  chordless : ChordlessChain s target chain
  visited : ∀ y ∈ chain, y ∈ state.visited
  users : ∀ y ∈ chain.tail, ∀ u, UsesType s u y → u ∈ state.visited

/-- The search from `x` is done with the symbols it meets, and with `x` when depth remains. -/
def Searches (s : UsageSnapshot) (context : UsageDtoContext) (target : SymbolId) (remaining : ℕ)
    (x : SymbolId) (state : IndirectUsageState) : Prop :=
  RowsOf s context target (collectIndirectIncomingUsages s context remaining x state) ∧
  Explores s target state (collectIndirectIncomingUsages s context remaining x state) ∧
  (remaining ≠ 0 → ∀ u, UsesType s u x →
    u ∈ (collectIndirectIncomingUsages s context remaining x state).visited)

/-- The loop over the aliases of `x`, all of them marked. -/
theorem explores_foldl {remaining : ℕ} {x : SymbolId} {rest : List SymbolId}
    (hlength : rest.length + (remaining + 1) = maxIndirectUsageDepth)
    (ih : ∀ {y : SymbolId} {state : IndirectUsageState},
      OnChain s context target (y :: x :: rest) state → Searches s context target remaining y state) :
    ∀ {aliases : List SymbolRecord} {state : IndirectUsageState}, RowsOf s context target state →
    (∀ y ∈ x :: rest, y ∈ state.visited) →
    (∀ y ∈ x :: rest, ∀ u, UsesType s u y → u ∈ state.visited) →
    (∀ via ∈ aliases, ChordlessChain s target (via.id :: x :: rest) ∧ via.id ∈ state.visited) →
    let final := aliases.foldl (fun state via =>
      collectIndirectIncomingUsages s context remaining via.id
        (collectDirectUsagesVia s context via state)) state
    RowsOf s context target final ∧ Explores s target state final ∧
      ∀ via ∈ aliases, Done s target final via.id
  | [], _, hrows, _, _, _ => ⟨hrows, ⟨⟨subset_rfl, subset_rfl⟩, fun _ h hnew => absurd h hnew⟩,
      fun _ h => nomatch h⟩
  | via :: aliases, state, hrows, hvisited, husers, haliases => by
    obtain ⟨hchain, hmarked⟩ := haliases via mem_cons_self
    obtain ⟨hrows₁, hvisited₁, hextends₁, hcollected⟩ := rowsOf_collectDirectUsagesVia hrows
      (by simp) (by simp only [length_cons]; omega) hchain.reaches
    have hsearch := @ih via.id (collectDirectUsagesVia s context via state)
      ⟨hrows₁, hchain, fun y hy => ?_, fun y hy u hu => hextends₁.visited (husers y hy u hu)⟩
    · obtain ⟨hrows₂, hexplores₂, hexpanded⟩ := hsearch
      have hextends : Extends state _ := hextends₁.trans hexplores₂.toExtends
      obtain ⟨hrows₃, hexplores₃, hdone⟩ := explores_foldl hlength ih hrows₂
        (fun y hy => hextends.visited (hvisited y hy))
        (fun y hy u hu => hextends.visited (husers y hy u hu))
        (fun u hu => ⟨(haliases u (mem_cons_of_mem via hu)).1,
          hextends.visited (haliases u (mem_cons_of_mem via hu)).2⟩)
      have hexplores₁ : Explores s target state (collectDirectUsagesVia s context via state) :=
        ⟨hextends₁, fun y hy hnew => absurd (hvisited₁ ▸ hy) hnew⟩
      refine ⟨hrows₃, (hexplores₁.trans hexplores₂).trans hexplores₃, fun u hu => ?_⟩
      rcases mem_cons.mp hu with rfl | hu
      · refine Done.mono ⟨fun r hr hsource => hexplores₂.seen (hcollected r hr hsource), ?_⟩
          hexplores₃.toExtends
        -- A symbol that is not searched further stands four steps away.
        rcases Nat.eq_zero_or_pos remaining with hzero | hpos
        · exact Or.inr ⟨x :: rest, hchain, by rw [length_cons]; omega⟩
        · exact Or.inl (hexpanded (Nat.pos_iff_ne_zero.mp hpos))
      · exact hdone u hu
    · rcases mem_cons.mp hy with rfl | hy
      · exact hextends₁.visited hmarked
      · exact hextends₁.visited (hvisited y hy)

theorem searches : ∀ {remaining : ℕ} {x : SymbolId} {rest : List SymbolId}
    {state : IndirectUsageState}, rest.length + remaining = maxIndirectUsageDepth →
    OnChain s context target (x :: rest) state → Searches s context target remaining x state
  | 0, _, _, state, _, h => ⟨h.rows, ⟨⟨subset_rfl, subset_rfl⟩, fun _ hx hnew => absurd hx hnew⟩,
      fun hzero => absurd rfl hzero⟩
  | remaining + 1, x, rest, state, hlength, h => by
    unfold Searches
    rw [collectIndirectIncomingUsages]
    obtain ⟨hsub, hmarked, hnew, hcases⟩ := @takeUnvisited_spec state.visited (typeUsers s x)
    generalize takeUnvisited state.visited (typeUsers s x) = taken at hsub hmarked hnew hcases ⊢
    obtain ⟨aliases, visited⟩ := taken
    simp only at hsub hmarked hnew hcases ⊢
    have hx : ∀ u, UsesType s u x → u ∈ visited := by
      intro u hu
      obtain ⟨symbol, hsymbol, rfl⟩ := mem_typeUsers_iff.mpr hu
      exact hmarked symbol hsymbol
    have hrows : RowsOf s context target { state with visited := visited } :=
      ⟨h.rows.once, h.rows.sound, h.rows.complete⟩
    have hchains : ∀ via ∈ aliases, ChordlessChain s target (via.id :: x :: rest) ∧
        via.id ∈ visited := by
      intro via hvia
      obtain ⟨hmem, hunvisited⟩ := hnew via hvia
      refine ⟨.step h.chordless (mem_typeUsers_iff.mp ⟨via, hmem, rfl⟩) ?_ ?_, hmarked via hmem⟩
      · exact fun hold => hunvisited (h.visited _ hold)
      · exact fun z hz huses => hunvisited (h.users z hz _ huses)
    obtain ⟨hfinal, hexplores, hdone⟩ := @explores_foldl s context target remaining x rest hlength
      (fun honchain => searches (by rw [length_cons]; omega) honchain) aliases
      { state with visited := visited } hrows
      (fun y hy => hsub (h.visited y hy))
      (fun y hy u hu => by
        rcases mem_cons.mp hy with rfl | hy
        · exact hx u hu
        · exact hsub (h.users y hy u hu)) hchains
    refine ⟨hfinal, ⟨⟨hsub.trans hexplores.visited, hexplores.seen⟩, fun y hy hfresh => ?_⟩,
      fun _ u hu => hexplores.visited (hx u hu)⟩
    by_cases hy' : y ∈ visited
    · rcases hcases y hy' with hold | ⟨via, hvia, rfl⟩
      · exact absurd hold hfresh
      · exact hdone via hvia
    · exact hexplores.done y hy hy'

/-- The references to the target are collected first. -/
theorem rowsOf_directUsages : RowsOf s context target (directUsages s context target) := by
  have hparse : ∀ {r : ReferenceRecord} {row : UsageDto}, r ∈ s.references.iter →
      usageDto s context r .incoming = some row →
      ReferenceId.parse row.reference.toList = some r.id := by
    intro r row hr hrow
    obtain ⟨hfile, hreference⟩ := s.bounded r hr
    rw [reference_of_usageDto hrow, String.toList_ofList, ReferenceId.parse_text hfile hreference]
  refine ⟨?_, fun row hrow => ?_, fun r hr hseen _ => ?_⟩
  · have hne : (s.incoming target).Pairwise fun r r' =>
        r.id ≠ r'.id ∧ r ∈ s.references.iter ∧ r' ∈ s.references.iter := by
      refine (pairwise_map.mp (s.incoming_nodup target)).imp_of_mem fun hr hr' hid => ?_
      exact ⟨hid, mem_iter_of_mem_incoming hr, mem_iter_of_mem_incoming hr'⟩
    refine pairwise_map.mpr (hne.filterMap _ fun r r' h row hrow row' hrow' heq => ?_)
    obtain ⟨hid, hr, hr'⟩ := h
    have hrow := hparse hr hrow
    rw [heq, hparse hr' hrow'] at hrow
    exact hid (some.inj hrow).symm
  · obtain ⟨r, hr, hrow'⟩ := mem_filterMap.mp hrow
    have hiter := mem_iter_of_mem_incoming hr
    refine ⟨r, hiter, ?_, Or.inl hr, by rw [hrow']; rfl, reference_of_usageDto hrow'⟩
    exact List.mem_toFinset.mpr (mem_filterMap.mpr ⟨row, hrow, hparse hiter hrow'⟩)
  · obtain ⟨row, hrow, hid⟩ := mem_filterMap.mp (List.mem_toFinset.mp hseen)
    obtain ⟨r', hr', hrow'⟩ := mem_filterMap.mp hrow
    rw [hparse (mem_iter_of_mem_incoming hr') hrow'] at hid
    exact ⟨row, hrow, by rw [reference_of_usageDto hrow', some.inj hid]⟩

/-! ## What is collected -/

theorem mem_visited_of_reachesUncut {final : IndirectUsageState}
    (hdone : ∀ x ∈ final.visited, x ≠ target → Done s target final x)
    (htarget : target ∈ final.visited) (husers : ∀ u, UsesType s u target → u ∈ final.visited)
    {n : ℕ} {x : SymbolId} (h : ReachesUncut s target n x) : x ∈ final.visited := by
  induction h with
  | zero => exact htarget
  | @step n x y _ huncut huses ih =>
    by_cases hy : y = target
    · exact husers x (hy ▸ huses)
    · exact (hdone y ih hy).expanded.resolve_right huncut x huses

/-- Every row is a usage and no usage is returned twice. The references to the target are returned,
and the references to a symbol at most four steps away when no symbol on the way to it also ends a
chordless chain of four steps. -/
theorem collectIncomingUsages_spec (s : UsageSnapshot) (context : UsageDtoContext)
    (target : SymbolId) : ((collectIncomingUsages s context target).map (·.reference)).Nodup ∧
    (∀ row ∈ collectIncomingUsages s context target, ∃ r, IsUsage s target r ∧
      (usageDto s context r .incoming).isSome ∧ row.reference = String.ofList r.id.text) ∧
    (∀ r ∈ s.incoming target, (usageDto s context r .incoming).isSome →
      ∃ row ∈ collectIncomingUsages s context target, row.reference = String.ofList r.id.text) ∧
    ∀ n ≤ maxIndirectUsageDepth, ∀ x, ReachesUncut s target n x → ∀ r ∈ s.incoming x,
      r.sourceSymbol ≠ x → (usageDto s context r .incoming).isSome →
      ∃ row ∈ collectIncomingUsages s context target, row.reference = String.ofList r.id.text := by
  have hdirect := @rowsOf_directUsages s context target
  have hchain : OnChain s context target [target] (directUsages s context target) := by
    refine ⟨hdirect, .target, fun y hy => ?_, fun _ hy => nomatch hy⟩
    rw [mem_singleton.mp hy]
    exact Finset.mem_singleton_self target
  obtain ⟨hrows, hexplores, husers⟩ := searches (Nat.zero_add _) hchain
  unfold collectIncomingUsages
  generalize collectIndirectIncomingUsages s context maxIndirectUsageDepth target
    (directUsages s context target) = final at hrows hexplores husers ⊢
  have hdone : ∀ x ∈ final.visited, x ≠ target → Done s target final x := fun x hx hne =>
    hexplores.done x hx fun hold => hne (Finset.mem_singleton.mp hold)
  have htarget : target ∈ final.visited := hexplores.visited (hchain.visited target (by simp))
  have hincoming : ∀ r ∈ s.incoming target, (usageDto s context r .incoming).isSome →
      ∃ row ∈ final.rows, row.reference = String.ofList r.id.text := by
    intro r hr hsome
    have hiter := UsageSnapshot.mem_iter_of_mem_incoming hr
    obtain ⟨row, hrow⟩ := isSome_iff_exists.mp hsome
    have hmem : row ∈ (directUsages s context target).rows := mem_filterMap.mpr ⟨r, hr, hrow⟩
    obtain ⟨r', hr', hseen, -, -, hreference⟩ := hdirect.sound row hmem
    have htext := congrArg String.toList ((reference_of_usageDto hrow).symm.trans hreference)
    rw [String.toList_ofList, String.toList_ofList] at htext
    have hid : r.id = r'.id := ReferenceId.eq_of_text_eq hiter hr' htext
    exact hrows.complete r hiter (hexplores.seen (hid ▸ hseen)) hsome
  refine ⟨hrows.once, fun row hrow => ?_, hincoming, fun n _ x hreaches r hr hsource hsome => ?_⟩
  · obtain ⟨r, -, -, husage, hsome, hreference⟩ := hrows.sound row hrow
    exact ⟨r, husage, hsome, hreference⟩
  · have hx := mem_visited_of_reachesUncut hdone htarget (husers (by decide)) hreaches
    by_cases htarget' : x = target
    · exact hincoming r (htarget' ▸ hr) hsome
    · exact hrows.complete r (UsageSnapshot.mem_iter_of_mem_incoming hr)
        ((hdone x hx htarget').collected r hr hsource) hsome

end Invariant

/-! ## Usages that are missed -/

/-- Every reference to the target or to a type symbol at most four steps away is returned. -/
def ReturnsAll (s : UsageSnapshot) (context : UsageDtoContext) (target : SymbolId) : Prop :=
  ∀ n ≤ maxIndirectUsageDepth, ∀ x, Reaches s target n x → ∀ r ∈ s.incoming x,
    (usageDto s context r .incoming).isSome →
    ∃ row ∈ collectIncomingUsages s context target, row.reference = String.ofList r.id.text

/-- A reference of one file to another of its symbols. -/
def usageReference (index source : ℕ) (kind : String) : ReferenceRecord :=
  ⟨⟨0, index⟩, ⟨0, source⟩, "", kind⟩

/-- A snapshot of one file of type symbols, with the targets of its references. -/
def oneFileSnapshot (n : ℕ) (references : List ReferenceRecord) (targets : List ℕ)
    (haligned : SlotAligned 0 [references])
    (hbounded : ∀ r ∈ [references].flatten, r.id.file ≤ maxU32 ∧ r.id.reference ≤ maxU32)
    (hnodup : ((references.zip targets).map (·.1.id)).Nodup) : UsageSnapshot where
  symbols := (List.range n).map fun i =>
    ⟨none, ⟨0, i⟩, 0, "T" ++ toString i, "T" ++ toString i, "type", "public", "", none⟩
  references := ⟨[references], haligned⟩
  source _ := some ⟨0, "src/types.rs", "rs"⟩
  lineRange _ := none
  linkage := ⟨(references.zip targets).map fun e => ⟨e.1.id, ⟨0, e.2⟩⟩, [], [], [], [], [], by
    simpa [Function.comp_def] using hnodup⟩
  readIndex := none
  bounded := hbounded
  indexed _ h := nomatch h

instance (s : UsageSnapshot) (x y : SymbolId) : Decidable (UsesType s x y) :=
  decidable_of_iff _ mem_typeUsers_iff

def everyUsage : UsageDtoContext := ⟨["."], ["."], fun _ => true, []⟩

/-- `T1` uses `T0` and itself. -/
def recursiveAlias : UsageSnapshot :=
  oneFileSnapshot 2 [usageReference 0 1 "uses_type", usageReference 1 1 "uses_type"] [0, 1]
    (by decide) (by decide) (by decide)

/-- `T4` is met after `T1`, `T2` and `T3`, and is a user of `T5`, which uses `T0`. Its own user
`T6` is read by `T0`. -/
def diamond : UsageSnapshot :=
  oneFileSnapshot 7 [usageReference 0 1 "uses_type", usageReference 1 5 "uses_type",
    usageReference 2 2 "uses_type", usageReference 3 3 "uses_type", usageReference 4 4 "uses_type",
    usageReference 5 4 "uses_type", usageReference 6 6 "uses_type", usageReference 7 0 "reads"]
    [0, 0, 1, 2, 3, 5, 4, 6] (by decide) (by decide) (by decide)

theorem usages_missed :
    ¬ReturnsAll recursiveAlias everyUsage ⟨0, 0⟩ ∧ ¬ReturnsAll diamond everyUsage ⟨0, 0⟩ := by
  constructor
  · intro h
    have hreaches : Reaches recursiveAlias ⟨0, 0⟩ 1 ⟨0, 1⟩ := .step .zero (by decide)
    have hown := h 1 (by decide) _ hreaches (usageReference 1 1 "uses_type") (by decide)
      (by decide)
    exact absurd hown (by decide)
  · intro h
    have hreaches : Reaches diamond ⟨0, 0⟩ 3 ⟨0, 6⟩ :=
      .step (.step (.step .zero (by decide : UsesType _ ⟨0, 5⟩ _)) (by decide :
        UsesType _ ⟨0, 4⟩ _)) (by decide)
    have hread := h 3 (by decide) _ hreaches (usageReference 7 0 "reads") (by decide)
      (by decide)
    exact absurd hread (by decide)

end CodeMoniker
