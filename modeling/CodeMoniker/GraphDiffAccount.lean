import CodeMoniker.CodeIndexDiff

/-!
# What the diff of a file accounts for

The diff of a changed file rests on one pairing of the previous with the next symbols, and one of
the references. `SymbolsAccounted` and `ReferencesAccounted` say which pairing the lists of the diff
report, and `graphDiff_accounts` that there is one : every record is in a pair, or listed as removed
or as new, and no file has a record of either kind with one key. A file is paired on its own, so
`PerFilePairing` puts the pairings of several files together.
-/

namespace CodeMoniker

open List
open Option (bind_eq_some_iff map_some some.inj)

/-! ## Matched records -/

section Matching

variable {α κ ι : Type} [DecidableEq κ] {key key' : α → Option κ} {previous next : List α}
  {num : α → ι} {s s' n n' : α}

theorem index_eq_of_nodup {l : List α} (h : (l.map num).Nodup) {p q : ℕ} (hs : l[p]? = some s)
    (hs' : l[q]? = some s') (heq : num s = num s') : p = q := by
  have hp := (List.getElem?_eq_some_iff.mp hs).1
  refine (getElem?_inj (by simpa using hp) h).mp ?_
  rw [getElem?_map, getElem?_map, hs, hs', map_some, map_some, heq]

theorem nodup_of_positions {l : List α} {place : ℕ → ι} (hinj : Function.Injective place)
    (h : ∀ {j s}, l[j]? = some s → num s = place j) : (l.map num).Nodup := by
  have hmap : l.map num = (range l.length).map place := by
    refine ext_getElem (by simp) fun j hj _ => ?_
    rw [length_map] at hj
    rw [getElem_map, getElem_map, getElem_range]
    exact h (getElem?_eq_getElem hj)
  rw [hmap]
  exact nodup_range.map hinj

theorem map_fst_matchRecords (key key' : α → Option κ) (previous next : List α) :
    (matchRecords key key' previous next).map (·.1) = previous := by
  rw [matchRecords, map_fst_zip]
  rw [length_map, KeyedMatch.pairs, KeyedMatch.length_matchAll, length_map]

theorem matched_key (h : (s, some n) ∈ matchRecords key key' previous next) :
    s ∈ previous ∧ n ∈ next ∧ ∃ k, key s = some k ∧ key' n = some k := by
  obtain ⟨p, i, hs, hn, hpair⟩ := mem_matchRecords_some.mp h
  obtain ⟨k, hk, hk'⟩ := KeyedMatch.pairs_key hpair
  rw [getElem?_map, hs, map_some, Option.some.injEq] at hk
  rw [getElem?_map, hn, map_some, Option.some.injEq] at hk'
  exact ⟨mem_of_getElem? hs, mem_of_getElem? hn, k, hk, hk'⟩

theorem matched_left_unique (hprevious : (previous.map num).Nodup)
    (h : (s, some n) ∈ matchRecords key key' previous next)
    (h' : (s, some n') ∈ matchRecords key key' previous next) : n = n' := by
  obtain ⟨p, i, hs, hn, hpair⟩ := mem_matchRecords_some.mp h
  obtain ⟨q, j, hs', hn', hpair'⟩ := mem_matchRecords_some.mp h'
  obtain rfl := index_eq_of_nodup hprevious hs hs' rfl
  rw [hpair, Option.some.injEq, Option.some.injEq] at hpair'
  subst hpair'
  exact some.inj (hn.symm.trans hn')

theorem matched_right_unique (hnext : (next.map num).Nodup)
    (h : (s, some n) ∈ matchRecords key key' previous next)
    (h' : (s', some n) ∈ matchRecords key key' previous next) : s = s' := by
  obtain ⟨p, i, hs, hn, hpair⟩ := mem_matchRecords_some.mp h
  obtain ⟨q, j, hs', hn', hpair'⟩ := mem_matchRecords_some.mp h'
  obtain rfl := index_eq_of_nodup hnext hn hn' rfl
  obtain rfl := KeyedMatch.pairs_injective hpair hpair'
  exact some.inj (hs.symm.trans hs')

theorem exists_matched {i : ℕ} (hn : next[i]? = some n)
    (h : some i ∈ KeyedMatch.pairs (previous.map key) (next.map key')) :
    ∃ s, (s, some n) ∈ matchRecords key key' previous next := by
  obtain ⟨p, hp⟩ := mem_iff_getElem?.mp h
  obtain ⟨k, hk, -⟩ := KeyedMatch.pairs_key hp
  rw [getElem?_map] at hk
  obtain ⟨s, hs, -⟩ := Option.map_eq_some_iff.mp hk
  exact ⟨s, mem_matchRecords_some.mpr ⟨p, i, hs, hn, hp⟩⟩

/-- Of a previous and a next record with one key, one is matched. -/
theorem matched_exhausted {k : κ} (hs : s ∈ previous) (hn : n ∈ next) (hk : key s = some k)
    (hk' : key' n = some k) : (∃ n', (s, some n') ∈ matchRecords key key' previous next) ∨
      ∃ s', (s', some n) ∈ matchRecords key key' previous next := by
  rw [← map_fst_matchRecords key key' previous next, mem_map] at hs
  obtain ⟨⟨s, found⟩, hmem, rfl⟩ := hs
  cases found with
  | some n' => exact Or.inl ⟨n', hmem⟩
  | none =>
    obtain ⟨p, hs, hpair⟩ := mem_matchRecords_none.mp hmem
    obtain ⟨i, hi⟩ := mem_iff_getElem?.mp hn
    refine Or.inr (exists_matched hi (KeyedMatch.pairs_exhausted (k := k) hpair ?_ ?_))
    · rw [getElem?_map, hs]
      exact congrArg some hk
    · rw [getElem?_map, hi, map_some, hk']

theorem unmatched_iff (hprevious : (previous.map num).Nodup) :
    (s, none) ∈ matchRecords key key' previous next ↔
      s ∈ previous ∧ ∀ n, (s, some n) ∉ matchRecords key key' previous next := by
  constructor
  · intro h
    obtain ⟨p, hs, hpair⟩ := mem_matchRecords_none.mp h
    refine ⟨mem_of_getElem? hs, fun n hn => ?_⟩
    obtain ⟨q, i, hs', -, hpair'⟩ := mem_matchRecords_some.mp hn
    obtain rfl := index_eq_of_nodup hprevious hs hs' rfl
    rw [hpair] at hpair'
    exact nomatch some.inj hpair'
  · rintro ⟨hs, hnot⟩
    rw [← map_fst_matchRecords key key' previous next, mem_map] at hs
    obtain ⟨⟨s, found⟩, hmem, rfl⟩ := hs
    cases found with
    | none => exact hmem
    | some n => exact absurd hmem (hnot n)

theorem left_iff (hnext : (next.map num).Nodup) : n ∈ leftRecords key key' previous next ↔
    n ∈ next ∧ (∃ k, key' n = some k) ∧ ∀ s, (s, some n) ∉ matchRecords key key' previous next := by
  rw [mem_leftRecords]
  constructor
  · rintro ⟨i, hn, hkey, hfree⟩
    refine ⟨mem_of_getElem? hn, hkey, fun s hs => hfree ?_⟩
    obtain ⟨p, j, -, hn', hpair⟩ := mem_matchRecords_some.mp hs
    obtain rfl := index_eq_of_nodup hnext hn hn' rfl
    exact mem_of_getElem? hpair
  · rintro ⟨hn, hkey, hnot⟩
    obtain ⟨i, hi⟩ := mem_iff_getElem?.mp hn
    refine ⟨i, hi, hkey, fun hpaired => ?_⟩
    obtain ⟨s, hs⟩ := exists_matched hi hpaired
    exact hnot s hs

theorem mem_unmatched_iff (hprevious : (previous.map num).Nodup) (id : ι) :
    id ∈ ((matchRecords key key' previous next).filterMap fun (s, found) =>
        if found.isNone then some s else none).map num ↔
      ∃ s ∈ previous, num s = id ∧ ∀ n, (s, some n) ∉ matchRecords key key' previous next := by
  simp only [mem_map, mem_filterMap, Prod.exists]
  constructor
  · rintro ⟨s, ⟨s', found, hmem, hs⟩, rfl⟩
    cases found with
    | some n => simp at hs
    | none =>
      obtain rfl : s' = s := by simpa using hs
      obtain ⟨hs, hnot⟩ := (unmatched_iff hprevious).mp hmem
      exact ⟨s', hs, rfl, hnot⟩
  · rintro ⟨s, hs, rfl, hnot⟩
    exact ⟨s, ⟨s, none, (unmatched_iff hprevious).mpr ⟨hs, hnot⟩, rfl⟩, rfl⟩

theorem mem_left_iff (hnext : (next.map num).Nodup) (hkeys : ∀ n ∈ next, ∃ k, key' n = some k)
    (id : ι) : id ∈ (leftRecords key key' previous next).map num ↔
      ∃ n ∈ next, num n = id ∧ ∀ s, (s, some n) ∉ matchRecords key key' previous next := by
  rw [mem_map]
  constructor
  · rintro ⟨n, hn, rfl⟩
    obtain ⟨hn, -, hnot⟩ := (left_iff hnext).mp hn
    exact ⟨n, hn, rfl, hnot⟩
  · rintro ⟨n, hn, rfl, hnot⟩
    exact ⟨n, (left_iff hnext).mpr ⟨hn, hkeys n hn, hnot⟩, rfl⟩

/-- What is listed for each record that is matched, or for each that is not, is listed once. -/
theorem nodup_filterMap_matchRecords {β : Type} (hprevious : (previous.map num).Nodup)
    {f : α × Option α → Option β} (g : β → ι) (hf : ∀ e b, f e = some b → g b = num e.1) :
    (((matchRecords key key' previous next).filterMap f).map g).Nodup := by
  rw [← map_fst_matchRecords key key' previous next, map_map] at hprevious
  generalize matchRecords key key' previous next = matched at hprevious
  refine hprevious.sublist ?_
  induction matched with
  | nil => simp
  | cons e matched ih =>
    have hrest := ih (nodup_cons.mp hprevious).2
    rw [filterMap_cons]
    split
    · exact hrest.cons _
    · next b hb =>
      rw [map_cons, map_cons, hf e b hb]
      exact hrest.cons_cons _

end Matching

/-! ## Accounts -/

/-- The diff of two lists of symbols reports the pairing. -/
structure SymbolsAccounted (previous next : List LinkedSymbol) (diff : IndexGraphDiff)
    (Pair : LinkedSymbol → LinkedSymbol → Prop) : Prop where
  mem : ∀ {s n}, Pair s n → s ∈ previous ∧ n ∈ next ∧ s.identity = n.identity
  file : ∀ {s n}, Pair s n → s.id.file = n.id.file
  left_unique : ∀ {s n n'}, Pair s n → Pair s n' → n = n'
  right_unique : ∀ {s s' n}, Pair s n → Pair s' n → s = s'
  exhausted : ∀ {s n}, s ∈ previous → n ∈ next → s.id.file = n.id.file →
    s.identity = n.identity → (∃ n', Pair s n') ∨ ∃ s', Pair s' n
  removed : ∀ id, id ∈ diff.removedSymbols ↔ ∃ s ∈ previous, s.id = id ∧ ∀ n, ¬Pair s n
  added : ∀ id, id ∈ diff.addedSymbols ↔ ∃ n ∈ next, n.id = id ∧ ∀ s, ¬Pair s n
  modified : ∀ id, id ∈ diff.modifiedSymbols ↔
    ∃ s n, Pair s n ∧ n.id = id ∧ symbolLinkageFieldsChanged s n = true
  modifiedInventory : ∀ id, id ∈ diff.modifiedInventorySymbols ↔
    ∃ s n, Pair s n ∧ n.id = id ∧ symbolLinkageFieldsChanged s n = false ∧
      symbolInventoryFieldsChanged s n = true
  changed : ∀ id, id ∈ diff.changedSymbols ↔
    id ∈ diff.modifiedSymbols ∨ id ∈ diff.addedSymbols
  remaps : ∀ id id', (id, id') ∈ diff.symbolIdRemaps ↔
    ∃ s n, Pair s n ∧ s.id = id ∧ n.id = id' ∧ symbolLinkageFieldsChanged s n = false ∧ id ≠ id'
  removed_once : diff.removedSymbols.Nodup
  remaps_once : (diff.symbolIdRemaps.map (·.1)).Nodup
  remaps_injective : ∀ {a b id}, (a, id) ∈ diff.symbolIdRemaps → (b, id) ∈ diff.symbolIdRemaps →
    a = b

/-- The diff of two lists of references reports the pairing. -/
structure ReferencesAccounted (reader : RecordReader) (m m' : CodeIndexMaterial)
    (previous next : List IndexedReference) (diff : IndexGraphDiff)
    (Pair : IndexedReference → IndexedReference → Prop) : Prop where
  mem : ∀ {r n}, Pair r n → r ∈ previous ∧ n ∈ next ∧
    ∃ k, referenceKey reader m r = some k ∧ referenceKey reader m' n = some k
  file : ∀ {r n}, Pair r n → r.id.file = n.id.file
  left_unique : ∀ {r n n'}, Pair r n → Pair r n' → n = n'
  right_unique : ∀ {r r' n}, Pair r n → Pair r' n → r = r'
  exhausted : ∀ {r n k}, r ∈ previous → n ∈ next → r.id.file = n.id.file →
    referenceKey reader m r = some k → referenceKey reader m' n = some k →
      (∃ n', Pair r n') ∨ ∃ r', Pair r' n
  removed : ∀ id, id ∈ diff.removedReferences ↔ ∃ r ∈ previous, r.id = id ∧ ∀ n, ¬Pair r n
  changed : ∀ id, id ∈ diff.changedReferences ↔ ∃ n ∈ next, n.id = id ∧ ∀ r, ¬Pair r n
  order : ∀ {r r' n n'}, Pair r n → Pair r' n' → r.id.file = r'.id.file →
    referenceKey reader m r = referenceKey reader m r' →
      r.id.reference < r'.id.reference → n.id.reference < n'.id.reference
  remaps : ∀ id id', (id, id') ∈ diff.referenceIdRemaps ↔
    ∃ r n, Pair r n ∧ r.id = id ∧ n.id = id' ∧ id ≠ id'
  removed_once : diff.removedReferences.Nodup
  remaps_once : (diff.referenceIdRemaps.map (·.1)).Nodup

theorem mem_symbolIdRemaps {previous next : List LinkedSymbol} {id id' : SymbolId} :
    (id, id') ∈ (diffSymbols previous next).symbolIdRemaps ↔ ∃ s n,
      (s, some n) ∈ matchRecords (some ·.identity) (some ·.identity) previous next ∧
        s.id = id ∧ n.id = id' ∧ symbolLinkageFieldsChanged s n = false ∧ id ≠ id' := by
  simp only [diffSymbols, mem_filterMap, Prod.exists, bind_eq_some_iff]
  constructor
  · rintro ⟨s, found, hmem, n, rfl, hn⟩
    split_ifs at hn with hchanged
    obtain ⟨rfl, rfl⟩ := Prod.mk.inj (some.inj hn)
    rw [Bool.and_eq_true, Bool.not_eq_true', decide_eq_true_eq] at hchanged
    exact ⟨s, n, hmem, rfl, rfl, hchanged⟩
  · rintro ⟨s, n, hmem, rfl, rfl, hlinkage, hne⟩
    exact ⟨s, some n, hmem, n, rfl, if_pos (by simp [hlinkage, hne])⟩

theorem diffSymbols_accounts {previous next : List LinkedSymbol}
    (hprevious : (previous.map (·.id)).Nodup) (hnext : (next.map (·.id)).Nodup)
    (hfile : ∀ s ∈ previous, ∀ n ∈ next, s.id.file = n.id.file) :
    SymbolsAccounted previous next (diffSymbols previous next) fun s n =>
      (s, some n) ∈ matchRecords (some ·.identity) (some ·.identity) previous next where
  mem h := by
    obtain ⟨hs, hn, k, hk, hk'⟩ := matched_key h
    exact ⟨hs, hn, some.inj (hk.trans hk'.symm)⟩
  file h := hfile _ (matched_key h).1 _ (matched_key h).2.1
  left_unique h h' := matched_left_unique hprevious h h'
  right_unique h h' := matched_right_unique hnext h h'
  exhausted hs hn _ hid := matched_exhausted hs hn rfl (congrArg some hid.symm)
  removed := mem_unmatched_iff hprevious
  added := mem_left_iff hnext fun _ _ => ⟨_, rfl⟩
  modified id := by
    simp only [diffSymbols, mem_map, mem_filterMap, Prod.exists, bind_eq_some_iff]
    constructor
    · rintro ⟨n, ⟨s, found, hmem, n', rfl, hn⟩, rfl⟩
      split_ifs at hn with hchanged
      obtain rfl := some.inj hn
      exact ⟨s, n', hmem, rfl, hchanged⟩
    · rintro ⟨s, n, hmem, rfl, hchanged⟩
      exact ⟨n, ⟨s, some n, hmem, n, rfl, if_pos hchanged⟩, rfl⟩
  modifiedInventory id := by
    simp only [diffSymbols, mem_map, mem_filterMap, Prod.exists, bind_eq_some_iff]
    constructor
    · rintro ⟨n, ⟨s, found, hmem, n', rfl, hn⟩, rfl⟩
      split_ifs at hn with hchanged
      obtain rfl := some.inj hn
      rw [Bool.and_eq_true, Bool.not_eq_true'] at hchanged
      exact ⟨s, n', hmem, rfl, hchanged⟩
    · rintro ⟨s, n, hmem, rfl, hlinkage, hinventory⟩
      exact ⟨n, ⟨s, some n, hmem, n, rfl, if_pos (by simp [hlinkage, hinventory])⟩, rfl⟩
  changed id := mem_append
  remaps id id' := mem_symbolIdRemaps
  removed_once := by
    refine nodup_filterMap_matchRecords hprevious (fun s : LinkedSymbol => s.id) fun e s hs => ?_
    split at hs
    split_ifs at hs
    rw [← some.inj hs]
  remaps_once := by
    refine nodup_filterMap_matchRecords hprevious (fun p : SymbolId × SymbolId => p.1)
      fun e p hp => ?_
    split at hp
    obtain ⟨n, -, hn⟩ := bind_eq_some_iff.mp hp
    split_ifs at hn
    rw [← some.inj hn]
  remaps_injective ha hb := by
    obtain ⟨s, n, hmem, rfl, rfl, -⟩ := mem_symbolIdRemaps.mp ha
    obtain ⟨s', n', hmem', rfl, hid, -⟩ := mem_symbolIdRemaps.mp hb
    -- the two next symbols have one id, so they are one symbol
    obtain rfl := inj_on_of_nodup_map hnext (matched_key hmem').2.1 (matched_key hmem).2.1 hid
    rw [matched_right_unique hnext hmem hmem']

theorem diffReferences_accounts {reader : RecordReader} {m m' : CodeIndexMaterial}
    {previous next : List IndexedReference} (hprevious : (previous.map (·.id)).Nodup)
    (hnext : (next.map (·.id)).Nodup)
    (hp : ∀ {j : ℕ} {r : IndexedReference}, previous[j]? = some r → r.id.reference = j)
    (hn : ∀ {j : ℕ} {n : IndexedReference}, next[j]? = some n → n.id.reference = j)
    (hfile : ∀ r ∈ previous, ∀ n ∈ next, r.id.file = n.id.file)
    (hkeys : ∀ n ∈ next, ∃ k, referenceKey reader m' n = some k) :
    ReferencesAccounted reader m m' previous next (diffReferences reader m m' previous next)
      fun r n => (r, some n) ∈
        matchRecords (referenceKey reader m) (referenceKey reader m') previous next where
  mem h := matched_key h
  file h := hfile _ (matched_key h).1 _ (matched_key h).2.1
  left_unique h h' := matched_left_unique hprevious h h'
  right_unique h h' := matched_right_unique hnext h h'
  exhausted hr hn _ := matched_exhausted hr hn
  removed := mem_unmatched_iff hprevious
  changed := mem_left_iff hnext hkeys
  order := by
    intro r r' n n' h h' _ hkey hlt
    obtain ⟨p, i, hr, hi, hpair⟩ := mem_matchRecords_some.mp h
    obtain ⟨q, j, hr', hj, hpair'⟩ := mem_matchRecords_some.mp h'
    rw [hp hr, hp hr'] at hlt
    rw [hn hi, hn hj]
    exact KeyedMatch.pairs_increasing hpair hpair' hlt (by simp [hr, hr', hkey])
  remaps id id' := by
    simp only [diffReferences, mem_filterMap, Prod.exists, bind_eq_some_iff]
    constructor
    · rintro ⟨r, found, hmem, n, rfl, hn⟩
      split_ifs at hn with hne
      obtain ⟨rfl, rfl⟩ := Prod.mk.inj (some.inj hn)
      exact ⟨r, n, hmem, rfl, rfl, hne⟩
    · rintro ⟨r, n, hmem, rfl, rfl, hne⟩
      exact ⟨r, some n, hmem, n, rfl, if_pos hne⟩
  removed_once := by
    refine nodup_filterMap_matchRecords hprevious (fun r : IndexedReference => r.id)
      fun e r hr => ?_
    split at hr
    split_ifs at hr
    rw [← some.inj hr]
  remaps_once := by
    refine nodup_filterMap_matchRecords hprevious (fun p : ReferenceId × ReferenceId => p.1)
      fun e p hp => ?_
    split at hp
    obtain ⟨n, -, hn⟩ := bind_eq_some_iff.mp hp
    split_ifs at hn
    rw [← some.inj hn]

/-! ## Pairs of several files -/

/-- A pairing of each file on its own, between the records it had and those it has. -/
structure PerFilePairing (α : Type) where
  files : List ℕ
  before : ℕ → List α
  after : ℕ → List α
  file : α → ℕ
  Pair : ℕ → α → α → Prop
  file_before : ∀ {f s}, s ∈ before f → file s = f
  file_after : ∀ {f n}, n ∈ after f → file n = f
  mem : ∀ {f s n}, Pair f s n → s ∈ before f ∧ n ∈ after f
  left_unique : ∀ {f s n n'}, Pair f s n → Pair f s n' → n = n'
  right_unique : ∀ {f s s' n}, Pair f s n → Pair f s' n → s = s'

namespace PerFilePairing

variable {α : Type} (pairing : PerFilePairing α) {s s' n n' : α}

/-- The pairing of all files together. -/
def All (s n : α) : Prop := ∃ f ∈ pairing.files, pairing.Pair f s n

variable {pairing}

theorem All.mem (h : pairing.All s n) :
    s ∈ pairing.files.flatMap pairing.before ∧ n ∈ pairing.files.flatMap pairing.after := by
  obtain ⟨f, hf, hpair⟩ := h
  exact ⟨mem_flatMap.mpr ⟨f, hf, (pairing.mem hpair).1⟩,
    mem_flatMap.mpr ⟨f, hf, (pairing.mem hpair).2⟩⟩

theorem All.file (h : pairing.All s n) : pairing.file s = pairing.file n := by
  obtain ⟨f, -, hpair⟩ := h
  rw [pairing.file_before (pairing.mem hpair).1, pairing.file_after (pairing.mem hpair).2]

/-- Where each file pairs one of `s` and `n`, one of them is paired. -/
theorem exhausted_all (hs : s ∈ pairing.files.flatMap pairing.before)
    (hn : n ∈ pairing.files.flatMap pairing.after) (hfile : pairing.file s = pairing.file n)
    (hone : ∀ f ∈ pairing.files, s ∈ pairing.before f → n ∈ pairing.after f →
      (∃ n', pairing.Pair f s n') ∨ ∃ s', pairing.Pair f s' n) :
    (∃ n', pairing.All s n') ∨ ∃ s', pairing.All s' n := by
  obtain ⟨f, hf, hs⟩ := mem_flatMap.mp hs
  obtain ⟨g, -, hn⟩ := mem_flatMap.mp hn
  rw [pairing.file_before hs, pairing.file_after hn] at hfile
  subst hfile
  rcases hone f hf hs hn with ⟨n', h⟩ | ⟨s', h⟩
  · exact Or.inl ⟨n', f, hf, h⟩
  · exact Or.inr ⟨s', f, hf, h⟩

theorem All.pair {f : ℕ} (h : pairing.All s n) (hf : pairing.file s = f ∨ pairing.file n = f) :
    pairing.Pair f s n := by
  obtain ⟨g, -, hpair⟩ := h
  obtain ⟨hs, hn⟩ := pairing.mem hpair
  rw [pairing.file_before hs, pairing.file_after hn, or_self] at hf
  exact hf ▸ hpair

theorem All.left_unique (h : pairing.All s n) (h' : pairing.All s n') : n = n' :=
  pairing.left_unique (h.pair (Or.inl rfl)) (h'.pair (Or.inl rfl))

theorem All.right_unique (h : pairing.All s n) (h' : pairing.All s' n) : s = s' :=
  pairing.right_unique (h.pair (Or.inr rfl)) (h'.pair (Or.inr rfl))

theorem exists_all_iff {R : α → α → Prop} :
    (∃ f ∈ pairing.files, ∃ s n, pairing.Pair f s n ∧ R s n) ↔ ∃ s n, pairing.All s n ∧ R s n := by
  constructor
  · rintro ⟨f, hf, s, n, hpair, hR⟩
    exact ⟨s, n, ⟨f, hf, hpair⟩, hR⟩
  · rintro ⟨s, n, ⟨f, hf, hpair⟩, hR⟩
    exact ⟨f, hf, s, n, hpair, hR⟩

theorem unpaired_before_iff {R : α → Prop} :
    (∃ f ∈ pairing.files, ∃ s ∈ pairing.before f, R s ∧ ∀ n, ¬pairing.Pair f s n) ↔
      ∃ s ∈ pairing.files.flatMap pairing.before, R s ∧ ∀ n, ¬pairing.All s n := by
  constructor
  · rintro ⟨f, hf, s, hs, hR, hnot⟩
    exact ⟨s, mem_flatMap.mpr ⟨f, hf, hs⟩, hR,
      fun n h => hnot n (h.pair (Or.inl (pairing.file_before hs)))⟩
  · rintro ⟨s, hs, hR, hnot⟩
    obtain ⟨f, hf, hs⟩ := mem_flatMap.mp hs
    exact ⟨f, hf, s, hs, hR, fun n h => hnot n ⟨f, hf, h⟩⟩

theorem unpaired_after_iff {R : α → Prop} :
    (∃ f ∈ pairing.files, ∃ n ∈ pairing.after f, R n ∧ ∀ s, ¬pairing.Pair f s n) ↔
      ∃ n ∈ pairing.files.flatMap pairing.after, R n ∧ ∀ s, ¬pairing.All s n := by
  constructor
  · rintro ⟨f, hf, n, hn, hR, hnot⟩
    exact ⟨n, mem_flatMap.mpr ⟨f, hf, hn⟩, hR,
      fun s h => hnot s (h.pair (Or.inr (pairing.file_after hn)))⟩
  · rintro ⟨n, hn, hR, hnot⟩
    obtain ⟨f, hf, hn⟩ := mem_flatMap.mp hn
    exact ⟨f, hf, n, hn, hR, fun s h => hnot s ⟨f, hf, h⟩⟩

end PerFilePairing

/-! ## Changed files -/

section Files

variable (reader : RecordReader) (m m' : CodeIndexMaterial)

/-- The changed files that the next index has. -/
def comparedFiles (changed : OrdSet ℕ) : List ℕ := changed.elems.filter (· < m'.files.length)

def SymbolPair (f : ℕ) (s n : LinkedSymbol) : Prop :=
  (s, some n) ∈ matchRecords (some ·.identity) (some ·.identity) (fileSymbols reader m f)
    (fileSymbols reader m' f)

def ReferencePair (f : ℕ) (r n : IndexedReference) : Prop :=
  (r, some n) ∈ matchRecords (referenceKey reader m) (referenceKey reader m')
    (fileReferences reader m f) (fileReferences reader m' f)

variable {reader m m'}

theorem id_of_getElem?_fileSymbols {f j : ℕ} {s : LinkedSymbol}
    (h : (fileSymbols reader m f)[j]? = some s) : s.id = ⟨f, j⟩ := by
  unfold fileSymbols at h
  cases hfile : m.files[f]? with
  | none => simp [hfile] at h
  | some file =>
    simp only [hfile, map_some, Option.getD_some, collectSymbols, getElem?_mapIdx] at h
    obtain ⟨d, -, rfl⟩ := Option.map_eq_some_iff.mp h
    rfl

theorem file_of_mem_fileSymbols {f : ℕ} {s : LinkedSymbol} (h : s ∈ fileSymbols reader m f) :
    s.id.file = f := by
  obtain ⟨j, hj⟩ := mem_iff_getElem?.mp h
  rw [id_of_getElem?_fileSymbols hj]

theorem file_of_mem_fileReferences {f : ℕ} {r : IndexedReference}
    (h : r ∈ fileReferences reader m f) : r.id.file = f := by
  obtain ⟨j, hj⟩ := mem_iff_getElem?.mp h
  rw [id_of_getElem?_fileReferences hj]

theorem symbolIds_nodup (f : ℕ) : ((fileSymbols reader m f).map (·.id)).Nodup :=
  nodup_of_positions (fun _ _ h => (SymbolId.mk.inj h).2) id_of_getElem?_fileSymbols

theorem fileReferenceIds_nodup (f : ℕ) : ((fileReferences reader m f).map (·.id)).Nodup :=
  nodup_of_positions (fun _ _ h => (ReferenceId.mk.inj h).2) id_of_getElem?_fileReferences

/-! ## The whole diff -/

variable {changed : OrdSet ℕ}

/-- The diff takes from the compared files what each of them adds. -/
theorem flatMap_fileDiffs {β : Type} {field : IndexGraphDiff → List β} (hfield : field {} = []) :
    (changed.elems.map (fileDiff reader m m')).flatMap field =
      (comparedFiles m' changed).flatMap fun f => field (fileDiff reader m m' f) := by
  rw [flatMap_map, comparedFiles]
  induction changed.elems with
  | nil => rfl
  | cons f files ih =>
    rw [flatMap_cons, filter_cons, ih]
    split_ifs with hf
    · rw [flatMap_cons]
    · have hnone : fileDiff reader m m' f = {} := if_neg (by simpa using hf)
      rw [hnone, hfield, nil_append]

theorem fileDiff_of_mem {f : ℕ} (h : f ∈ comparedFiles m' changed) : fileDiff reader m m' f =
    let references :=
      diffReferences reader m m' (fileReferences reader m f) (fileReferences reader m' f)
    { diffSymbols (fileSymbols reader m f) (fileSymbols reader m' f) with
      changedReferences := references.changedReferences
      removedReferences := references.removedReferences
      removedReferenceKinds := references.removedReferenceKinds
      referenceIdRemaps := references.referenceIdRemaps } :=
  if_pos (by simpa using of_mem_filter h)

theorem mem_fileDiffs_iff {β : Type} {field : IndexGraphDiff → List β} (hfield : field {} = [])
    {x : β} : x ∈ (changed.elems.map (fileDiff reader m m')).flatMap field ↔
      ∃ f ∈ comparedFiles m' changed, x ∈ field (fileDiff reader m m' f) := by
  rw [flatMap_fileDiffs hfield, mem_flatMap]

theorem mem_fileDiffs_congr {β : Type} {field : IndexGraphDiff → List β} (hfield : field {} = [])
    {x : β} {P : ℕ → Prop} {Q : Prop}
    (hfile : ∀ f ∈ comparedFiles m' changed, x ∈ field (fileDiff reader m m' f) ↔ P f)
    (hall : (∃ f ∈ comparedFiles m' changed, P f) ↔ Q) :
    x ∈ (changed.elems.map (fileDiff reader m m')).flatMap field ↔ Q := by
  rw [mem_fileDiffs_iff hfield, ← hall]
  exact exists_congr fun f => and_congr_right (hfile f)

theorem fileDiff_symbols {f : ℕ} (h : f ∈ comparedFiles m' changed) :
    SymbolsAccounted (fileSymbols reader m f) (fileSymbols reader m' f) (fileDiff reader m m' f)
      (SymbolPair reader m m' f) := by
  rw [fileDiff_of_mem h]
  have haccount : SymbolsAccounted (fileSymbols reader m f) (fileSymbols reader m' f)
      (diffSymbols (fileSymbols reader m f) (fileSymbols reader m' f)) (SymbolPair reader m m' f) :=
    diffSymbols_accounts (symbolIds_nodup f) (symbolIds_nodup f) fun s hs n hn => by
      rw [file_of_mem_fileSymbols hs, file_of_mem_fileSymbols hn]
  exact { haccount with }

theorem fileDiff_references (hm' : m'.Indexed) {f : ℕ} (h : f ∈ comparedFiles m' changed) :
    ReferencesAccounted reader m m' (fileReferences reader m f) (fileReferences reader m' f)
      (fileDiff reader m m' f) (ReferencePair reader m m' f) := by
  rw [fileDiff_of_mem h]
  have haccount : ReferencesAccounted reader m m' (fileReferences reader m f)
      (fileReferences reader m' f)
      (diffReferences reader m m' (fileReferences reader m f) (fileReferences reader m' f))
      (ReferencePair reader m m' f) := by
    refine diffReferences_accounts (fileReferenceIds_nodup f) (fileReferenceIds_nodup f)
      (fun h => ?_) (fun h => ?_) (fun r hr n hn => ?_) fun n hn => ?_
    · rw [id_of_getElem?_fileReferences h]
    · rw [id_of_getElem?_fileReferences h]
    · rw [file_of_mem_fileReferences hr, file_of_mem_fileReferences hn]
    · obtain ⟨j, hj⟩ := mem_iff_getElem?.mp hn
      exact referenceKey_isSome hm' hj
  exact { haccount with }

theorem comparedFiles_nodup : (comparedFiles m' changed).Nodup := changed.nodup.filter _

/-- The lists of different files share nothing. -/
theorem nodup_fileDiffs {β γ : Type} (field : IndexGraphDiff → List β) (hfield : field {} = [])
    (g : β → γ) (file : γ → ℕ)
    (hnodup : ∀ f ∈ comparedFiles m' changed, ((field (fileDiff reader m m' f)).map g).Nodup)
    (hfile : ∀ f ∈ comparedFiles m' changed, ∀ b ∈ field (fileDiff reader m m' f), file (g b) = f) :
    (((changed.elems.map (fileDiff reader m m')).flatMap field).map g).Nodup := by
  rw [flatMap_fileDiffs hfield, map_flatMap, nodup_flatMap]
  refine ⟨hnodup, comparedFiles_nodup.imp_of_mem fun {f f'} hf hf' hne => ?_⟩
  rintro x hx hx'
  obtain ⟨b, hb, rfl⟩ := mem_map.mp hx
  obtain ⟨b', hb', heq⟩ := mem_map.mp hx'
  exact hne (by rw [← hfile f hf b hb, ← hfile f' hf' b' hb', heq])

/-- The pairing of the symbols of the compared files. -/
def symbolPairing (reader : RecordReader) (m m' : CodeIndexMaterial) (changed : OrdSet ℕ) :
    PerFilePairing LinkedSymbol where
  files := comparedFiles m' changed
  before := fileSymbols reader m
  after := fileSymbols reader m'
  file s := s.id.file
  Pair := SymbolPair reader m m'
  file_before := file_of_mem_fileSymbols
  file_after := file_of_mem_fileSymbols
  mem h := ⟨(matched_key h).1, (matched_key h).2.1⟩
  left_unique h h' := matched_left_unique (symbolIds_nodup _) h h'
  right_unique h h' := matched_right_unique (symbolIds_nodup _) h h'

/-- The pairing of the references of the compared files. -/
def referencePairing (reader : RecordReader) (m m' : CodeIndexMaterial) (changed : OrdSet ℕ) :
    PerFilePairing IndexedReference where
  files := comparedFiles m' changed
  before := fileReferences reader m
  after := fileReferences reader m'
  file r := r.id.file
  Pair := ReferencePair reader m m'
  file_before := file_of_mem_fileReferences
  file_after := file_of_mem_fileReferences
  mem h := ⟨(matched_key h).1, (matched_key h).2.1⟩
  left_unique h h' := matched_left_unique (fileReferenceIds_nodup _) h h'
  right_unique h h' := matched_right_unique (fileReferenceIds_nodup _) h h'

theorem graphDiff_symbols (reader : RecordReader) (m m' : CodeIndexMaterial) (changed : OrdSet ℕ) :
    SymbolsAccounted ((comparedFiles m' changed).flatMap (fileSymbols reader m))
      ((comparedFiles m' changed).flatMap (fileSymbols reader m')) (graphDiff reader m m' changed)
      (symbolPairing reader m m' changed).All where
  mem h := by
    have hmem := PerFilePairing.All.mem h
    obtain ⟨f, -, hpair⟩ := h
    obtain ⟨-, -, k, hk, hk'⟩ := matched_key hpair
    exact ⟨hmem.1, hmem.2, some.inj (hk.trans hk'.symm)⟩
  file h := PerFilePairing.All.file h
  left_unique h h' := h.left_unique h'
  right_unique h h' := h.right_unique h'
  exhausted hs hn hfile hid :=
    PerFilePairing.exhausted_all hs hn hfile fun _ _ hs hn =>
      matched_exhausted hs hn rfl (congrArg some hid.symm)
  removed id :=
    mem_fileDiffs_congr rfl (fun _ hf => (fileDiff_symbols hf).removed id)
      (symbolPairing reader m m' changed).unpaired_before_iff
  added id :=
    mem_fileDiffs_congr rfl (fun _ hf => (fileDiff_symbols hf).added id)
      (symbolPairing reader m m' changed).unpaired_after_iff
  modified id :=
    mem_fileDiffs_congr rfl (fun _ hf => (fileDiff_symbols hf).modified id)
      (symbolPairing reader m m' changed).exists_all_iff
  modifiedInventory id :=
    mem_fileDiffs_congr rfl (fun _ hf => (fileDiff_symbols hf).modifiedInventory id)
      (symbolPairing reader m m' changed).exists_all_iff
  changed id := by
    rw [graphDiff, mem_fileDiffs_iff rfl, mem_fileDiffs_iff rfl, mem_fileDiffs_iff rfl, ← exists_or]
    refine exists_congr fun f => ?_
    rw [← and_or_left]
    exact and_congr_right fun hf => (fileDiff_symbols hf).changed id
  remaps id id' :=
    mem_fileDiffs_congr rfl (fun _ hf => (fileDiff_symbols hf).remaps id id')
      (symbolPairing reader m m' changed).exists_all_iff
  removed_once := by
    rw [← map_id (graphDiff reader m m' changed).removedSymbols]
    refine nodup_fileDiffs (·.removedSymbols) rfl id SymbolId.file (fun f hf => ?_)
      fun f hf id hid => ?_
    · rw [map_id]
      exact (fileDiff_symbols hf).removed_once
    · obtain ⟨s, hs, rfl, -⟩ := ((fileDiff_symbols hf).removed id).mp hid
      exact file_of_mem_fileSymbols hs
  remaps_once := by
    refine nodup_fileDiffs (·.symbolIdRemaps) rfl (·.1) SymbolId.file
      (fun f hf => (fileDiff_symbols hf).remaps_once) fun f hf p hp => ?_
    obtain ⟨s, n, hpair, hs, -⟩ := ((fileDiff_symbols hf).remaps p.1 p.2).mp hp
    rw [← hs]
    exact file_of_mem_fileSymbols (matched_key hpair).1
  remaps_injective := by
    intro a b id ha hb
    rw [graphDiff, mem_fileDiffs_iff rfl] at ha hb
    obtain ⟨f, hf, ha⟩ := ha
    obtain ⟨f', hf', hb⟩ := hb
    obtain ⟨s, n, hpair, -, hn, -⟩ := ((fileDiff_symbols hf).remaps a id).mp ha
    obtain ⟨s', n', hpair', -, hn', -⟩ := ((fileDiff_symbols hf').remaps b id).mp hb
    obtain rfl : f = f' := by
      rw [← file_of_mem_fileSymbols (matched_key hpair).2.1,
        ← file_of_mem_fileSymbols (matched_key hpair').2.1, hn, hn']
    exact (fileDiff_symbols hf).remaps_injective ha hb

theorem graphDiff_references (reader : RecordReader) (m : CodeIndexMaterial)
    {m' : CodeIndexMaterial} (hm' : m'.Indexed) (changed : OrdSet ℕ) :
    ReferencesAccounted reader m m' ((comparedFiles m' changed).flatMap (fileReferences reader m))
      ((comparedFiles m' changed).flatMap (fileReferences reader m'))
      (graphDiff reader m m' changed) (referencePairing reader m m' changed).All where
  mem h := by
    have hmem := PerFilePairing.All.mem h
    obtain ⟨f, -, hpair⟩ := h
    exact ⟨hmem.1, hmem.2, (matched_key hpair).2.2⟩
  file h := PerFilePairing.All.file h
  left_unique h h' := h.left_unique h'
  right_unique h h' := h.right_unique h'
  exhausted hr hn hfile hk hk' :=
    PerFilePairing.exhausted_all hr hn hfile fun _ _ hr hn => matched_exhausted hr hn hk hk'
  removed id :=
    mem_fileDiffs_congr rfl (fun _ hf => (fileDiff_references hm' hf).removed id)
      (referencePairing reader m m' changed).unpaired_before_iff
  changed id :=
    mem_fileDiffs_congr rfl (fun _ hf => (fileDiff_references hm' hf).changed id)
      (referencePairing reader m m' changed).unpaired_after_iff
  order := by
    intro r r' n n' h h' hfile hkey hlt
    obtain ⟨f, hf, hpair⟩ := id h
    have hpair' := h'.pair (Or.inl (hfile.symm.trans (file_of_mem_fileReferences
      (matched_key hpair).1)))
    exact (fileDiff_references hm' hf).order hpair hpair' hfile hkey hlt
  remaps id id' :=
    mem_fileDiffs_congr rfl (fun _ hf => (fileDiff_references hm' hf).remaps id id')
      (referencePairing reader m m' changed).exists_all_iff
  removed_once := by
    rw [← map_id (graphDiff reader m m' changed).removedReferences]
    refine nodup_fileDiffs (·.removedReferences) rfl id ReferenceId.file (fun f hf => ?_)
      fun f hf id hid => ?_
    · rw [map_id]
      exact (fileDiff_references hm' hf).removed_once
    · obtain ⟨r, hr, rfl, -⟩ := ((fileDiff_references hm' hf).removed id).mp hid
      exact file_of_mem_fileReferences hr
  remaps_once := by
    refine nodup_fileDiffs (·.referenceIdRemaps) rfl (·.1) ReferenceId.file
      (fun f hf => (fileDiff_references hm' hf).remaps_once) fun f hf p hp => ?_
    obtain ⟨r, n, hpair, hr, -⟩ := ((fileDiff_references hm' hf).remaps p.1 p.2).mp hp
    rw [← hr]
    exact file_of_mem_fileReferences (matched_key hpair).1

/-- The diff of an update reports, for the files it compares, one pairing of the symbols and one of
the references. -/
theorem graphDiff_accounts (reader : RecordReader) (m : CodeIndexMaterial)
    {m' : CodeIndexMaterial} (hm' : m'.Indexed) (changed : OrdSet ℕ) :
    (∃ Pair, SymbolsAccounted ((comparedFiles m' changed).flatMap (fileSymbols reader m))
      ((comparedFiles m' changed).flatMap (fileSymbols reader m'))
      (graphDiff reader m m' changed) Pair) ∧ ∃ Pair, ReferencesAccounted reader m m'
      ((comparedFiles m' changed).flatMap (fileReferences reader m))
      ((comparedFiles m' changed).flatMap (fileReferences reader m'))
      (graphDiff reader m m' changed) Pair :=
  ⟨⟨_, graphDiff_symbols reader m m' changed⟩, ⟨_, graphDiff_references reader m hm' changed⟩⟩

end Files

def graphReader : RecordReader where
  scheme := "code".toList
  relPath file := file.path
  isNavigableDef _ _ := true
  lineRange _ p := (p.1.toNat, p.2.toNat)

def bothFiles : OrdSet ℕ := ⟨[0, 1], by simp⟩

/-- The first of two files stays as it is, and the second one goes. -/
theorem graphDiff_accounts_removed_python : let m := twoFiles "util.py" .python
    let m' := afterRemoval "util.py" .python
    (∃ Pair, SymbolsAccounted ((comparedFiles m' bothFiles).flatMap (fileSymbols graphReader m))
      ((comparedFiles m' bothFiles).flatMap (fileSymbols graphReader m'))
      (graphDiff graphReader m m' bothFiles) Pair ∧ ∃ s n, Pair s n) ∧
    ∃ Pair, ReferencesAccounted graphReader m m'
      ((comparedFiles m' bothFiles).flatMap (fileReferences graphReader m))
      ((comparedFiles m' bothFiles).flatMap (fileReferences graphReader m'))
      (graphDiff graphReader m m' bothFiles) Pair ∧ ∃ r n, Pair r n := by
  intro m m'
  have hm : m.Indexed := CodeIndexMaterial.indexed_load _
  obtain ⟨⟨Pair, h⟩, Pair', h'⟩ := graphDiff_accounts graphReader m (hm.refresh removeSecond)
    bothFiles
  have hpaired : ∀ {α : Type} {R : α → α → Prop} {a b : α}, (∃ b', R a b') ∨ (∃ a', R a' b) →
      ∃ a b, R a b := by
    rintro α R a b (⟨b', h⟩ | ⟨a', h⟩)
    · exact ⟨a, b', h⟩
    · exact ⟨a', b, h⟩
  refine ⟨⟨Pair, h, hpaired (h.exhausted mem_cons_self mem_cons_self rfl rfl)⟩, Pair', h', ?_⟩
  obtain ⟨k, hk⟩ := @referenceKey_isSome graphReader m hm 0 0 _ rfl
  exact hpaired (h'.exhausted mem_cons_self mem_cons_self rfl hk hk)

end CodeMoniker
