import CodeMoniker.CandidateCatalog

/-!
# The name indexes of the candidates

A name index is a relation between partitions, keys and symbols, kept as a map of maps without empty
entries (`NamesListed`). Adding a symbol under a key adds one triple to the relation, and removing
it takes one away. The relation determines every lookup (`NamesListed.namesAt_eq`).
-/

namespace CodeMoniker

open Option ByteCodec AList

section Names

variable {key key' : Bytes} {symbol : SymbolOrdinal}

theorem lookup_insertName (names : NameIndex) : (insertName names key symbol).lookup key' =
    if key' = key then some (((names.lookup key).getD ∅).insert symbol) else names.lookup key' := by
  unfold insertName
  split_ifs with h
  · rw [h, lookup_insert]
  · rw [lookup_insert_ne h]

theorem lookup_removeName (names : NameIndex) : (removeName names key symbol).lookup key' =
    if key' = key then (names.lookup key).filter (fun s => s.filter (· ≠ symbol) ≠ ∅) |>.map
      (·.filter (· ≠ symbol)) else names.lookup key' := by
  unfold removeName
  cases hlookup : names.lookup key with
  | none =>
    split_ifs with h
    · rw [h, hlookup]
      rfl
    · rfl
  | some symbols =>
    by_cases hkey : key' = key
    · subst hkey
      by_cases hrest : symbols.filter (· ≠ symbol) = ∅
      · simp [hrest]
      · simp [hrest]
    · by_cases hrest : symbols.filter (· ≠ symbol) = ∅
      · simp [hrest, hkey, lookup_erase_ne hkey]
      · simp [hrest, hkey, lookup_insert_ne hkey]

end Names

/-! ## Partitions -/

section Partitions

variable {κ : Type} [DecidableEq κ] {index index' : AList fun _ : κ => NameIndex}
  {R : κ → Bytes → SymbolOrdinal → Prop} {part part' : κ} {key key' : Bytes}
  {symbol : SymbolOrdinal}

/-- The symbols under a key of a partition. -/
def namesAt (index : AList fun _ : κ => NameIndex) (part : κ) (key : Bytes) : Option SymbolSet :=
  (index.lookup part).bind (·.lookup key)

/-- The index holds the relation, and neither an empty partition nor a key without symbols. -/
structure NamesListed (index : AList fun _ : κ => NameIndex)
    (R : κ → Bytes → SymbolOrdinal → Prop) : Prop where
  mem : ∀ part key o, (∃ s, namesAt index part key = some s ∧ o ∈ s) ↔ R part key o
  symbols : ∀ part key s, namesAt index part key = some s → ∃ o, o ∈ s
  keys : ∀ part names, index.lookup part = some names → ∃ key s, names.lookup key = some s

theorem namesAt_insertPartitionedName :
    namesAt (insertPartitionedName index part key symbol) part' key' =
      if part' = part ∧ key' = key then some (((namesAt index part key).getD ∅).insert symbol)
      else namesAt index part' key' := by
  unfold namesAt insertPartitionedName
  by_cases hpart : part' = part
  · subst hpart
    simp only [lookup_insert, bind_some, lookup_insertName, true_and]
    cases index.lookup part' <;> simp
  · simp [lookup_insert_ne hpart, hpart]

theorem namesAt_removePartitionedName :
    namesAt (removePartitionedName index part key symbol) part' key' =
      if part' = part ∧ key' = key then
        (namesAt index part key).filter (fun s => s.filter (· ≠ symbol) ≠ ∅) |>.map
          (·.filter (· ≠ symbol)) else namesAt index part' key' := by
  unfold namesAt removePartitionedName
  cases hlookup : index.lookup part with
  | none =>
    split_ifs with h
    · rw [h.1, hlookup]
      rfl
    · rfl
  | some names =>
    have hrest := @lookup_removeName key key' symbol names
    by_cases hpart : part' = part
    · subst hpart
      simp only [bind_some, true_and]
      rw [hlookup, bind_some, ← hrest]
      by_cases hempty : (removeName names key symbol).entries = []
      · have hnone : (removeName names key symbol).lookup key' = none := by
          rw [lookup_eq_none, mem_keys, keys, hempty]
          simp
        simp only [hempty, if_true, lookup_erase, bind_none, hnone]
      · simp only [hempty, if_false, lookup_insert, bind_some]
    · by_cases hempty : (removeName names key symbol).entries = []
      · simp [hempty, lookup_erase_ne hpart, hpart]
      · simp [hempty, lookup_insert_ne hpart, hpart]

namespace NamesListed

theorem empty : NamesListed (∅ : AList fun _ : κ => NameIndex) fun _ _ _ => False where
  mem part key o := by simp [namesAt]
  symbols part key s h := by simp [namesAt] at h
  keys part names h := by simp at h

theorem congr (h : NamesListed index R) {R' : κ → Bytes → SymbolOrdinal → Prop}
    (hR : ∀ part key o, R part key o ↔ R' part key o) : NamesListed index R' where
  mem part key o := (h.mem part key o).trans (hR part key o)
  symbols := h.symbols
  keys := h.keys

theorem insert (h : NamesListed index R) (part : κ) (key : Bytes) (symbol : SymbolOrdinal) :
    NamesListed (insertPartitionedName index part key symbol)
      fun part' key' o => R part' key' o ∨ part' = part ∧ key' = key ∧ o = symbol where
  mem part' key' o := by
    rw [namesAt_insertPartitionedName, ← h.mem]
    split_ifs with heq
    · obtain ⟨rfl, rfl⟩ := heq
      cases hat : namesAt index part' key' with
      | none => simp
      | some s => simp [or_comm]
    · simp only [← and_assoc, heq, false_and, or_false]
  symbols part' key' s hs := by
    rw [namesAt_insertPartitionedName] at hs
    split_ifs at hs with heq
    · obtain rfl := some.inj hs
      exact ⟨symbol, OrdSet.mem_insert.mpr (Or.inl rfl)⟩
    · exact h.symbols part' key' s hs
  keys part' names hnames := by
    unfold insertPartitionedName at hnames
    by_cases hpart : part' = part
    · subst hpart
      rw [lookup_insert] at hnames
      obtain rfl := some.inj hnames
      exact ⟨key, _, by rw [lookup_insertName, if_pos rfl]⟩
    · rw [lookup_insert_ne hpart] at hnames
      exact h.keys part' names hnames

theorem remove (h : NamesListed index R) (part : κ) (key : Bytes) (symbol : SymbolOrdinal) :
    NamesListed (removePartitionedName index part key symbol)
      fun part' key' o => R part' key' o ∧ ¬(part' = part ∧ key' = key ∧ o = symbol) where
  mem part' key' o := by
    rw [namesAt_removePartitionedName, ← h.mem]
    split_ifs with heq
    · obtain ⟨rfl, rfl⟩ := heq
      cases hat : namesAt index part' key' with
      | none => simp
      | some s =>
        simp only [Option.filter, Option.some.injEq, true_and]
        constructor
        · rintro ⟨s', hs', ho⟩
          split_ifs at hs' with hrest
          · obtain rfl := some.inj hs'
            obtain ⟨ho, hne⟩ := OrdSet.mem_filter.mp ho
            exact ⟨⟨s, rfl, ho⟩, hne⟩
          · cases hs'
        · rintro ⟨⟨s', rfl, ho⟩, hne⟩
          have hmem : o ∈ s.filter (· ≠ symbol) := OrdSet.mem_filter.mpr ⟨ho, hne⟩
          have hrest : s.filter (· ≠ symbol) ≠ ∅ := OrdSet.ne_empty_iff.mpr ⟨o, hmem⟩
          exact ⟨_, by simp [hrest], hmem⟩
    · simp only [← and_assoc, heq, false_and, not_false_eq_true, and_true]
  symbols part' key' s hs := by
    rw [namesAt_removePartitionedName] at hs
    split_ifs at hs with heq
    · obtain ⟨s', hs', rfl⟩ := map_eq_some_iff.mp hs
      obtain ⟨-, hrest⟩ := filter_eq_some_iff.mp hs'
      exact OrdSet.ne_empty_iff.mp (of_decide_eq_true hrest)
    · exact h.symbols part' key' s hs
  keys part' names hnames := by
    unfold removePartitionedName at hnames
    split at hnames
    · exact h.keys part' names hnames
    · next old hold =>
      by_cases hempty : (removeName old key symbol).entries = []
      · simp only [hempty, if_true] at hnames
        by_cases hpart : part' = part
        · subst hpart
          rw [lookup_erase] at hnames
          cases hnames
        · rw [lookup_erase_ne hpart] at hnames
          exact h.keys part' names hnames
      · simp only [hempty, if_false] at hnames
        by_cases hpart : part' = part
        · subst hpart
          rw [lookup_insert] at hnames
          obtain rfl := some.inj hnames
          obtain ⟨e, he⟩ := List.exists_mem_of_ne_nil _ hempty
          exact ⟨e.1, e.2, mem_lookup_iff.mpr he⟩
        · rw [lookup_insert_ne hpart] at hnames
          exact h.keys part' names hnames

theorem foldl_insert (part : κ) (symbol : SymbolOrdinal) : ∀ (keys : List Bytes)
    {index : AList fun _ : κ => NameIndex} {R : κ → Bytes → SymbolOrdinal → Prop},
    NamesListed index R →
    NamesListed (keys.foldl (fun names key => insertPartitionedName names part key symbol) index)
      fun part' key' o => R part' key' o ∨ part' = part ∧ key' ∈ keys ∧ o = symbol
  | [], index, R, h => h.congr fun _ _ _ => by simp
  | key :: keys, index, R, h => by
    refine (foldl_insert part symbol keys (h.insert part key symbol)).congr fun part' key' o => ?_
    rw [List.mem_cons]
    tauto

theorem foldl_remove (part : κ) (symbol : SymbolOrdinal) : ∀ (keys : List Bytes)
    {index : AList fun _ : κ => NameIndex} {R : κ → Bytes → SymbolOrdinal → Prop},
    NamesListed index R →
    NamesListed (keys.foldl (fun names key => removePartitionedName names part key symbol) index)
      fun part' key' o => R part' key' o ∧ ¬(part' = part ∧ key' ∈ keys ∧ o = symbol)
  | [], index, R, h => h.congr fun _ _ _ => by simp
  | key :: keys, index, R, h => by
    refine (foldl_remove part symbol keys (h.remove part key symbol)).congr fun part' key' o => ?_
    rw [List.mem_cons]
    tauto

/-- The relation determines what a key finds. -/
theorem namesAt_eq (h : NamesListed index R) (h' : NamesListed index' R) :
    namesAt index part key = namesAt index' part key := by
  have hsub : ∀ {index index' : AList fun _ : κ => NameIndex}, NamesListed index R →
      NamesListed index' R → ∀ {s}, namesAt index part key = some s →
        ∃ s', namesAt index' part key = some s' ∧ ∀ o ∈ s, o ∈ s' := by
    intro index index' h h' s hs
    obtain ⟨o, ho⟩ := h.symbols part key s hs
    obtain ⟨s', hs', -⟩ := (h'.mem part key o).mpr ((h.mem part key o).mp ⟨s, hs, ho⟩)
    refine ⟨s', hs', fun o ho => ?_⟩
    obtain ⟨s'', hs'', ho'⟩ := (h'.mem part key o).mpr ((h.mem part key o).mp ⟨s, hs, ho⟩)
    obtain rfl := some.inj (hs'.symm.trans hs'')
    exact ho'
  cases hs : namesAt index part key with
  | none =>
    cases hs' : namesAt index' part key with
    | none => rfl
    | some s' =>
      obtain ⟨s, hs'', -⟩ := hsub h' h hs'
      cases hs.symm.trans hs''
  | some s =>
    obtain ⟨s', hs', hmem⟩ := hsub h h' hs
    obtain ⟨s'', hs'', hmem'⟩ := hsub h' h hs'
    obtain rfl := some.inj (hs.symm.trans hs'')
    rw [hs', Option.some.injEq]
    ext o
    exact ⟨hmem o, hmem' o⟩

/-- It also determines which partitions and keys are there. -/
theorem keys_iff (h : NamesListed index R) (h' : NamesListed index' R) :
    (∃ names, index.lookup part = some names ∧ key ∈ names) ↔
      ∃ names, index'.lookup part = some names ∧ key ∈ names := by
  have hnames : ∀ {index : AList fun _ : κ => NameIndex},
      (∃ names, index.lookup part = some names ∧ key ∈ names) ↔
        (namesAt index part key).isSome := by
    intro index
    unfold namesAt
    cases index.lookup part with
    | none => simp
    | some names => simp [lookup_isSome]
  rw [hnames, hnames, h.namesAt_eq h']

end NamesListed

end Partitions

end CodeMoniker
