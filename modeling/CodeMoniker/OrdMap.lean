import Mathlib

/-!
# Finite maps with an ordered iteration

A finite map held as the list of its entries with strictly increasing keys, as a search tree
iterates it. Two maps with the same lookups are equal (`OrdMap.ext`), so a statement about the
order of the entries reduces to one about the lookups.
-/

/-- Entries with strictly increasing keys. -/
structure OrdMap (κ α : Type) [LinearOrder κ] where
  entries : List (κ × α)
  sorted : entries.Pairwise (·.1 < ·.1)

namespace OrdMap

open List

variable {κ α β : Type} [LinearOrder κ]

instance [DecidableEq α] : DecidableEq (OrdMap κ α) := fun m n =>
  decidable_of_iff (m.entries = n.entries)
    ⟨fun h => by cases m; cases n; simpa using h, fun h => h ▸ rfl⟩

instance : EmptyCollection (OrdMap κ α) := ⟨⟨[], List.Pairwise.nil⟩⟩

def getList (k : κ) : List (κ × α) → Option α
  | [] => none
  | (k', v) :: l => if k = k' then some v else getList k l

def get? (m : OrdMap κ α) (k : κ) : Option α := getList k m.entries

@[simp] theorem get?_empty (k : κ) : (∅ : OrdMap κ α).get? k = none := rfl

def keys (m : OrdMap κ α) : List κ := m.entries.map (·.1)

def values (m : OrdMap κ α) : List α := m.entries.map (·.2)

/-! ## Lookup and entries -/

theorem getList_eq_some {k : κ} {v : α} : ∀ {l : List (κ × α)}, (l.map (·.1)).Nodup →
    (getList k l = some v ↔ (k, v) ∈ l)
  | [], _ => by simp [getList]
  | (k', v') :: l, h => by
    obtain ⟨hk', hl⟩ := nodup_cons.mp h
    have ih := @getList_eq_some k v l hl
    by_cases hk : k = k'
    · subst hk
      have hnot : (k, v) ∉ l := fun hmem => hk' (mem_map.mpr ⟨(k, v), hmem, rfl⟩)
      simp only [getList, if_true, Option.some.injEq, mem_cons, Prod.mk.injEq, true_and, hnot,
        or_false]
      exact eq_comm
    · simp [getList, hk, ih]

theorem nodup_keys (m : OrdMap κ α) : m.keys.Nodup :=
  pairwise_map.mpr (m.sorted.imp fun h => h.ne)

variable {m : OrdMap κ α} {k : κ} {v : α}

theorem mem_entries : (k, v) ∈ m.entries ↔ m.get? k = some v :=
  (getList_eq_some m.nodup_keys).symm

theorem mem_values : v ∈ m.values ↔ ∃ k, m.get? k = some v := by
  simp only [values, mem_map, Prod.exists, exists_eq_right, mem_entries]

theorem mem_keys : k ∈ m.keys ↔ ∃ v, m.get? k = some v := by
  simp only [keys, mem_map, Prod.exists, exists_and_right, exists_eq_right, mem_entries]

/-- Two increasing lists with the same entries are the same list. -/
theorem entries_eq_of_mem_iff {l m : List (κ × α)} (hl : l.Pairwise (·.1 < ·.1))
    (hm : m.Pairwise (·.1 < ·.1)) (h : ∀ e, e ∈ l ↔ e ∈ m) : l = m := by
  have ne_of_key_lt : ∀ {a b : κ × α}, a.1 < b.1 → a ≠ b := by
    rintro a b hab rfl
    exact lt_irrefl _ hab
  have hperm : l.Perm m :=
    (perm_ext_iff_of_nodup (hl.imp ne_of_key_lt) (hm.imp ne_of_key_lt)).mpr h
  exact hperm.eq_of_pairwise (fun a b _ _ hab hba => absurd hba (not_lt_of_gt hab)) hl hm

@[ext] theorem ext {m n : OrdMap κ α} (h : ∀ k, m.get? k = n.get? k) : m = n := by
  have hentries : m.entries = n.entries := by
    refine entries_eq_of_mem_iff m.sorted n.sorted ?_
    rintro ⟨k, v⟩
    rw [mem_entries, mem_entries, h k]
  cases m
  cases n
  simpa using hentries

/-! ## Operations -/

def insertList (k : κ) (v : α) : List (κ × α) → List (κ × α)
  | [] => [(k, v)]
  | (k', v') :: l =>
    if k < k' then (k, v) :: (k', v') :: l
    else if k' < k then (k', v') :: insertList k v l
    else (k, v) :: l

theorem key_insertList {k k' : κ} {v : α} : ∀ {l : List (κ × α)},
    k' ∈ (insertList k v l).map (·.1) → k' = k ∨ k' ∈ l.map (·.1)
  | [], h => by simpa [insertList] using h
  | (k'', v'') :: l, h => by
    unfold insertList at h
    split_ifs at h with h1 h2
    · simpa using h
    · rcases mem_cons.mp h with rfl | h
      · simp
      · rcases key_insertList h with rfl | h
        · simp
        · exact Or.inr (mem_cons_of_mem _ h)
    · rcases mem_cons.mp h with rfl | h
      · simp
      · exact Or.inr (mem_cons_of_mem _ h)

theorem sorted_insertList : ∀ {l : List (κ × α)}, l.Pairwise (·.1 < ·.1) →
    (insertList k v l).Pairwise (·.1 < ·.1)
  | [], _ => by simp [insertList]
  | (k', v') :: l, h => by
    obtain ⟨hk', hl⟩ := pairwise_cons.mp h
    unfold insertList
    split_ifs with h1 h2
    · refine pairwise_cons.mpr ⟨fun e he => ?_, h⟩
      rcases mem_cons.mp he with rfl | he
      · exact h1
      · exact h1.trans (hk' e he)
    · refine pairwise_cons.mpr ⟨fun e he => ?_, sorted_insertList hl⟩
      rcases key_insertList (mem_map_of_mem he) with heq | hmem
      · exact heq ▸ h2
      · obtain ⟨e', he', heq⟩ := mem_map.mp hmem
        exact heq ▸ hk' e' he'
    · obtain rfl : k = k' := le_antisymm (not_lt.mp h2) (not_lt.mp h1)
      exact pairwise_cons.mpr ⟨hk', hl⟩

def insert (m : OrdMap κ α) (k : κ) (v : α) : OrdMap κ α :=
  ⟨insertList k v m.entries, sorted_insertList m.sorted⟩

theorem getList_insertList {k k' : κ} {v : α} : ∀ {l : List (κ × α)},
    getList k' (insertList k v l) = if k' = k then some v else getList k' l
  | [] => rfl
  | (k'', v'') :: l => by
    have ih := @getList_insertList k k' v l
    unfold insertList
    by_cases h1 : k < k''
    · rw [if_pos h1, getList]
    · rw [if_neg h1]
      by_cases h2 : k'' < k
      · rw [if_pos h2, getList, getList, ih]
        by_cases hk : k' = k
        · subst hk
          simp [h2.ne']
        · simp [hk]
      · obtain rfl : k = k'' := le_antisymm (not_lt.mp h2) (not_lt.mp h1)
        rw [if_neg h2, getList, getList]
        by_cases hk : k' = k <;> simp [hk]

@[simp] theorem get?_insert {m : OrdMap κ α} {k k' : κ} {v : α} :
    (m.insert k v).get? k' = if k' = k then some v else m.get? k' :=
  getList_insertList

def erase (m : OrdMap κ α) (k : κ) : OrdMap κ α :=
  ⟨m.entries.filter (·.1 ≠ k), m.sorted.filter _⟩

theorem getList_filter {k k' : κ} : ∀ {l : List (κ × α)},
    getList k' (l.filter (·.1 ≠ k)) = if k' = k then none else getList k' l
  | [] => by simp [getList]
  | (k'', v) :: l => by
    have ih := @getList_filter k k' l
    by_cases hk : k'' = k
    · subst hk
      simp only [ne_eq, not_true_eq_false, decide_false, Bool.false_eq_true, not_false_eq_true,
        filter_cons_of_neg]
      rw [ih]
      by_cases hk' : k' = k'' <;> simp [getList, hk']
    · simp only [ne_eq, hk, not_false_eq_true, decide_true, filter_cons_of_pos, getList]
      by_cases hk' : k' = k
      · subst hk'
        rw [ih]
        simp [Ne.symm hk]
      · rw [ih]
        simp [hk']

@[simp] theorem get?_erase {m : OrdMap κ α} {k k' : κ} :
    (m.erase k).get? k' = if k' = k then none else m.get? k' :=
  getList_filter

/-- The map of a list of entries. A later entry replaces an earlier one with its key. -/
def ofList (l : List (κ × α)) : OrdMap κ α := l.foldl (fun m e => m.insert e.1 e.2) ∅

theorem get?_foldl_insert : ∀ {l : List (κ × α)} {m : OrdMap κ α},
    (l.foldl (fun m e => m.insert e.1 e.2) m).get? k =
      ((l.reverse.find? (·.1 = k)).map (·.2)).or (m.get? k)
  | [], m => by simp
  | (k', v) :: l, m => by
    rw [foldl_cons, get?_foldl_insert, get?_insert, reverse_cons, find?_append]
    cases l.reverse.find? (·.1 = k) with
    | some e => simp
    | none =>
      by_cases hk : k' = k
      · simp [hk]
      · simp [hk, Ne.symm hk]

variable {l : List (κ × α)}

theorem get?_ofList : (ofList l).get? k = (l.reverse.find? (·.1 = k)).map (·.2) := by
  rw [ofList, get?_foldl_insert, get?_empty, Option.or_none]

theorem get?_ofList_map {key : β → κ} {f : β → α} {l : List β} {k : κ} :
    (ofList (l.map fun b => (key b, f b))).get? k = (l.reverse.find? (key · = k)).map f := by
  rw [get?_ofList, ← map_reverse, find?_map, Option.map_map]
  rfl

/-- A list that says one thing about every key is its map. -/
theorem get?_ofList_of_unique (hl : ∀ k v v', (k, v) ∈ l → (k, v') ∈ l → v = v') {k : κ} {v : α} :
    (ofList l).get? k = some v ↔ (k, v) ∈ l := by
  rw [get?_ofList, Option.map_eq_some_iff]
  constructor
  · rintro ⟨⟨k', v'⟩, hfind, rfl⟩
    obtain rfl : k' = k := by simpa using find?_some hfind
    exact mem_reverse.mp (mem_of_find?_eq_some hfind)
  · intro hmem
    have hsome : (l.reverse.find? (·.1 = k)).isSome := by
      rw [find?_isSome]
      exact ⟨(k, v), mem_reverse.mpr hmem, by simp⟩
    obtain ⟨⟨k', v'⟩, hfind⟩ := Option.isSome_iff_exists.mp hsome
    obtain rfl : k' = k := by simpa using find?_some hfind
    have hmem' := mem_reverse.mp (mem_of_find?_eq_some hfind)
    exact ⟨(k', v'), hfind, hl _ _ _ hmem' hmem⟩

theorem get?_ofList_of_nodup (hl : (l.map (·.1)).Nodup) {k : κ} {v : α} :
    (ofList l).get? k = some v ↔ (k, v) ∈ l := by
  refine get?_ofList_of_unique fun k v v' hv hv' => ?_
  rw [← getList_eq_some hl] at hv hv'
  exact Option.some.inj (hv.symm.trans hv')

/-- A list with distinct keys holds the entries of its map. -/
theorem perm_entries_ofList (hl : (l.map (·.1)).Nodup) : (ofList l).entries.Perm l := by
  have of_keys : ∀ {m : List (κ × α)}, (m.map (·.1)).Nodup → m.Nodup := by
    intro m hm
    refine (pairwise_map.mp hm).imp ?_
    rintro a b hne rfl
    exact hne rfl
  refine (perm_ext_iff_of_nodup (of_keys (ofList l).nodup_keys) (of_keys hl)).mpr ?_
  rintro ⟨k, v⟩
  rw [mem_entries, get?_ofList_of_nodup hl]

/-- The values are the list they are read from, if it is increasing in their keys. -/
theorem values_eq_of_get? {key : α → κ} {l : List α}
    (hl : l.Pairwise (key · < key ·)) (h : ∀ k v, m.get? k = some v ↔ v ∈ l ∧ key v = k) :
    m.values = l := by
  have hsorted : (l.map fun v => (key v, v)).Pairwise (·.1 < ·.1) := pairwise_map.mpr hl
  have hentries : m.entries = l.map fun v => (key v, v) := by
    refine entries_eq_of_mem_iff m.sorted hsorted ?_
    rintro ⟨k, v⟩
    rw [mem_entries, h k v]
    simp only [mem_map, Prod.mk.injEq]
    refine ⟨fun ⟨hv, hk⟩ => ⟨v, hv, hk, rfl⟩, ?_⟩
    rintro ⟨v', hv, hk, rfl⟩
    exact ⟨hv, hk⟩
  rw [values, hentries, map_map]
  exact map_id l

/-! ## Entries changed in place -/

/-- The entry under a key is changed. A key without an entry gets the initial one first. -/
def update (m : OrdMap κ α) (k : κ) (init : α) (f : α → α) : OrdMap κ α :=
  m.insert k (f ((m.get? k).getD init))

@[simp] theorem get?_update {m : OrdMap κ α} {k k' : κ} {init : α} {f : α → α} :
    (m.update k init f).get? k' = if k' = k then some (f ((m.get? k).getD init)) else m.get? k' :=
  get?_insert

theorem getList_eq_none : ∀ {l : List (κ × α)}, k ∉ l.map (·.1) → getList k l = none
  | [], _ => rfl
  | (k', v) :: l, h => by
    simp only [map_cons, mem_cons, not_or] at h
    rw [getList, if_neg h.1, getList_eq_none h.2]

/-- The entries of one map go over those of another. -/
theorem get?_foldl_insert_entries (f : α → β) {k : κ} (m : OrdMap κ α) (n : OrdMap κ β) :
    (m.entries.foldl (fun n e => n.insert e.1 (f e.2)) n).get? k =
      ((m.get? k).map f).or (n.get? k) := by
  have hfold : ∀ (l : List (κ × α)) (n : OrdMap κ β), (l.map (·.1)).Nodup →
      (l.foldl (fun n e => n.insert e.1 (f e.2)) n).get? k =
        ((getList k l).map f).or (n.get? k) := by
    intro l
    induction l with
    | nil => exact fun n _ => rfl
    | cons e l ih =>
      intro n hl
      obtain ⟨hnot, hl⟩ := nodup_cons.mp hl
      rw [foldl_cons, ih _ hl, get?_insert, getList]
      split_ifs with hk
      · subst hk
        rw [getList_eq_none hnot]
        rfl
      · rfl
  exact hfold m.entries n m.nodup_keys

/-- An insertion replaces the weight of the entry under its key. -/
theorem sum_insertList (w : α → ℕ) {k : κ} {v : α} : ∀ {l : List (κ × α)},
    l.Pairwise (·.1 < ·.1) → ((insertList k v l).map (w ·.2)).sum +
      ((getList k l).map w).getD 0 = (l.map (w ·.2)).sum + w v
  | [], _ => by simp [insertList, getList]
  | (k', v') :: l, h => by
    obtain ⟨hk', hl⟩ := pairwise_cons.mp h
    have ih := sum_insertList w (k := k) (v := v) hl
    rcases lt_trichotomy k k' with hlt | rfl | hlt
    · have hnot : k ∉ ((k', v') :: l).map (·.1) := by
        intro hmem
        obtain ⟨e, he, rfl⟩ := mem_map.mp hmem
        rcases mem_cons.mp he with rfl | he
        · exact lt_irrefl _ hlt
        · exact lt_asymm hlt (hk' e he)
      rw [insertList, if_pos hlt, getList_eq_none hnot]
      simp only [map_cons, sum_cons, Option.map_none, Option.getD_none]
      omega
    · rw [insertList, if_neg (lt_irrefl _), if_neg (lt_irrefl _), getList, if_pos rfl]
      simp only [map_cons, sum_cons, Option.map_some, Option.getD_some]
      omega
    · rw [insertList, if_neg hlt.le.not_gt, if_pos hlt, getList, if_neg hlt.ne']
      simp only [map_cons, sum_cons]
      omega

/-- A change that adds one to the weight of an entry adds one to the sum. -/
theorem sum_update (w : α → ℕ) {init : α} {f : α → α} (hinit : w init = 0)
    (hf : ∀ a, w (f a) = w a + 1) (m : OrdMap κ α) (k : κ) :
    ((m.update k init f).values.map w).sum = (m.values.map w).sum + 1 := by
  have hsum := sum_insertList w (k := k) (v := f ((m.get? k).getD init)) m.sorted
  have hold : ((m.get? k).map w).getD 0 = w ((m.get? k).getD init) := by
    cases m.get? k with
    | none => exact hinit.symm
    | some a => rfl
  rw [← get?, hold, hf] at hsum
  simp only [values, update, insert, map_map, Function.comp_def]
  omega

section Groups

variable {key : β → κ} {init : β → α} {f : β → α → α}

/-- The elements under a key change its entry in their order. The first of them makes it. -/
theorem get?_foldl_update : ∀ {l : List β} {m : OrdMap κ α},
    (l.foldl (fun m b => m.update (key b) (init b) (f b)) m).get? k =
      match l.filter (key · = k) with
      | [] => m.get? k
      | b :: group => some (group.foldl (fun a b => f b a) (f b ((m.get? k).getD (init b))))
  | [], _ => rfl
  | b :: l, m => by
    rw [foldl_cons, get?_foldl_update]
    by_cases hb : key b = k
    · rw [filter_cons_of_pos (by simpa using hb)]
      cases l.filter (key · = k) <;> simp [hb]
    · rw [filter_cons_of_neg (by simpa using hb)]
      simp only [get?_update, if_neg (Ne.symm hb)]

theorem mem_keys_foldl_update {l : List β} {k : κ} :
    k ∈ (l.foldl (fun m b => m.update (key b) (init b) (f b)) (∅ : OrdMap κ α)).keys ↔
      ∃ b ∈ l, key b = k := by
  rw [mem_keys, get?_foldl_update]
  cases hgroup : l.filter (key · = k) with
  | nil =>
    refine iff_of_false (by simp) ?_
    rintro ⟨b, hb, hkey⟩
    have hmem : b ∈ l.filter (key · = k) := mem_filter.mpr ⟨hb, by simpa using hkey⟩
    rw [hgroup] at hmem
    exact nomatch hmem
  | cons b group =>
    have hmem : b ∈ l.filter (key · = k) := hgroup ▸ mem_cons_self
    obtain ⟨hb, hkey⟩ := mem_filter.mp hmem
    exact iff_of_true ⟨_, rfl⟩ ⟨b, hb, by simpa using hkey⟩

end Groups

end OrdMap
