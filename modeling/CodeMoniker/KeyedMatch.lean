import Mathlib

/-!
# Matching two lists by key

Elements of one list are matched with elements of another that have the same key, the first
free one each time. `index` files the positions of the second list under their keys, and
`matchAll` takes positions out as the keys of the first list come. A position is matched at
most once and with its own key (`matchAll_key`, `matchAll_injective`), and what is left over is
what has a key and is not matched (`mem_leftover`). Equal keys keep their order
(`pairs_increasing`), and a key is left over on one side only (`pairs_exhausted`).
-/

namespace KeyedMatch

open List Option

variable {κ : Type} [DecidableEq κ]

/-- Positions under each key. -/
abbrev Pool (κ : Type) := AList fun _ : κ => List ℕ

namespace Pool

variable (pool : Pool κ)

def get (k : κ) : List ℕ := (pool.lookup k).getD []

/-- One position more under a key. -/
def push (k : κ) (i : ℕ) : Pool κ := pool.insert k (pool.get k ++ [i])

/-- The first position under a key, and the pool without it. A key without positions goes. -/
def pop (k : κ) : Option (ℕ × Pool κ) :=
  match pool.get k with
  | [] => none
  | [i] => some (i, pool.erase k)
  | i :: rest => some (i, pool.insert k rest)

/-- All positions. -/
def values : List ℕ := pool.entries.flatMap (·.2)

@[simp] theorem get_empty (k : κ) : get (∅ : Pool κ) k = [] := by simp [get]

@[simp] theorem get_insert (k k' : κ) (l : List ℕ) :
    get (AList.insert k l pool) k' = if k' = k then l else pool.get k' := by
  unfold get
  split_ifs with hk
  · rw [hk, AList.lookup_insert]
    rfl
  · rw [AList.lookup_insert_ne hk]

@[simp] theorem get_erase (k k' : κ) :
    get (AList.erase k pool) k' = if k' = k then [] else pool.get k' := by
  unfold get
  split_ifs with hk
  · rw [hk, AList.lookup_erase]
    rfl
  · rw [AList.lookup_erase_ne hk]

theorem mem_get_push {pool : Pool κ} {k k' : κ} {i i' : ℕ} :
    i' ∈ (pool.push k i).get k' ↔ i' ∈ pool.get k' ∨ k' = k ∧ i' = i := by
  rw [push, get_insert]
  split_ifs with hk
  · simp [hk]
  · simp [hk]

theorem get_of_pop {pool rest : Pool κ} {k : κ} {i : ℕ} (h : pool.pop k = some (i, rest)) :
    pool.get k = i :: rest.get k ∧ ∀ k', k' ≠ k → rest.get k' = pool.get k' := by
  unfold pop at h
  split at h
  · cases h
  · next j hk =>
    obtain ⟨rfl, rfl⟩ := Prod.mk.inj (some.inj h)
    exact ⟨by simp [hk], fun k' hne => by simp [hne]⟩
  · next j l _ hk =>
    obtain ⟨rfl, rfl⟩ := Prod.mk.inj (some.inj h)
    exact ⟨by simp [hk], fun k' hne => by simp [hne]⟩

theorem get_of_pop_none {pool : Pool κ} {k : κ} (h : pool.pop k = none) : pool.get k = [] := by
  unfold pop at h
  split at h
  · assumption
  · cases h
  · cases h

theorem mem_values {pool : Pool κ} {i : ℕ} : i ∈ pool.values ↔ ∃ k, i ∈ pool.get k := by
  simp only [values, mem_flatMap, get]
  refine ⟨?_, ?_⟩
  · rintro ⟨e, he, hi⟩
    have hl : pool.lookup e.1 = some e.2 := AList.mem_lookup_iff.mpr he
    exact ⟨e.1, by rwa [hl]⟩
  · rintro ⟨k, hi⟩
    cases hl : pool.lookup k with
    | none => simp [hl] at hi
    | some l =>
      rw [hl] at hi
      exact ⟨⟨k, l⟩, AList.mem_lookup_iff.mp hl, hi⟩

end Pool

/-- The positions from `n` on, under their keys. -/
def indexFrom (n : ℕ) (pool : Pool κ) : List (Option κ) → Pool κ
  | [] => pool
  | none :: keys => indexFrom (n + 1) pool keys
  | some k :: keys => indexFrom (n + 1) (pool.push k n) keys

/-- The positions under their keys; an element without a key is left out. -/
def index (keys : List (Option κ)) : Pool κ := indexFrom 0 ∅ keys

/-- For each key the position it is matched with, and the pool that is left. -/
def matchAll (pool : Pool κ) : List (Option κ) → List (Option ℕ) × Pool κ
  | [] => ([], pool)
  | key :: keys =>
    match key.bind pool.pop with
    | none => (none :: (matchAll pool keys).1, (matchAll pool keys).2)
    | some (i, rest) => (some i :: (matchAll rest keys).1, (matchAll rest keys).2)

/-! ## What the pool holds -/

/-- The pool holds, each once, the positions of `next` with a key that are not in `used`. -/
structure Holds (next : List (Option κ)) (used : Set ℕ) (pool : Pool κ) : Prop where
  mem : ∀ k i, i ∈ pool.get k ↔ next[i]? = some (some k) ∧ i ∉ used
  nodup : ∀ k, (pool.get k).Nodup

theorem Holds.push {done : List (Option κ)} {pool : Pool κ} (h : Holds done ∅ pool)
    (k : κ) : Holds (done ++ [some k]) ∅ (pool.push k done.length) := by
  have hnew : done.length ∉ pool.get k := by simp [h.mem]
  refine ⟨fun k' i => ?_, fun k' => ?_⟩
  · rw [Pool.mem_get_push, h.mem, getElem?_append]
    split_ifs with hi
    · simp [Nat.ne_of_lt hi]
    · have hnone : done[i]? = none := getElem?_eq_none (not_lt.mp hi)
      rw [hnone, getElem?_singleton]
      split_ifs with hzero
      · have hlen : i = done.length := by omega
        simp [hlen, eq_comm]
      · have hlen : i ≠ done.length := by omega
        simp [hlen]
  · rw [Pool.push, Pool.get_insert]
    split_ifs
    · refine nodup_append.mpr ⟨h.nodup k, by simp, fun i hi j hj => ?_⟩
      rw [mem_singleton.mp hj]
      rintro rfl
      exact hnew hi
    · exact h.nodup k'

theorem Holds.skip {done : List (Option κ)} {pool : Pool κ} (h : Holds done ∅ pool) :
    Holds (done ++ [none]) ∅ pool := by
  refine ⟨fun k i => ?_, h.nodup⟩
  rw [h.mem, getElem?_append]
  split_ifs with hi
  · rfl
  · have hnone : done[i]? = none := getElem?_eq_none (not_lt.mp hi)
    rw [hnone, getElem?_singleton]
    split_ifs <;> simp

theorem holds_indexFrom : ∀ (keys done : List (Option κ)) (pool : Pool κ),
    Holds done ∅ pool → Holds (done ++ keys) ∅ (indexFrom done.length pool keys)
  | [], done, pool, h => by simpa [indexFrom] using h
  | none :: keys, done, pool, h => by
    have hrest := holds_indexFrom keys (done ++ [none]) pool h.skip
    rwa [append_assoc, singleton_append, length_append, length_singleton]
      at hrest
  | some k :: keys, done, pool, h => by
    have hrest := holds_indexFrom keys (done ++ [some k]) _ (h.push k)
    rwa [append_assoc, singleton_append, length_append, length_singleton]
      at hrest

theorem holds_index (keys : List (Option κ)) : Holds keys ∅ (index keys) := by
  have hempty : Holds ([] : List (Option κ)) ∅ ∅ := ⟨by simp, by simp⟩
  exact holds_indexFrom keys [] ∅ hempty

variable {next : List (Option κ)}

theorem Holds.pop {used : Set ℕ} {pool rest : Pool κ} {k : κ} {i : ℕ}
    (h : Holds next used pool) (hpop : pool.pop k = some (i, rest)) :
    next[i]? = some (some k) ∧ i ∉ used ∧ Holds next (insert i used) rest := by
  obtain ⟨hget, hother⟩ := Pool.get_of_pop hpop
  have hnodup := h.nodup k
  rw [hget, nodup_cons] at hnodup
  obtain ⟨hkey, hfree⟩ := (h.mem k i).mp (by rw [hget]; exact mem_cons_self)
  refine ⟨hkey, hfree, fun k' j => ?_, fun k' => ?_⟩
  · rw [Set.mem_insert_iff, not_or]
    by_cases hk : k' = k
    · subst hk
      have hmem := h.mem k' j
      rw [hget, mem_cons] at hmem
      refine ⟨fun hj => ?_, fun ⟨hj, hne, hju⟩ => ?_⟩
      · have hne : j ≠ i := fun heq => hnodup.1 (heq ▸ hj)
        exact ⟨(hmem.mp (Or.inr hj)).1, hne, (hmem.mp (Or.inr hj)).2⟩
      · exact (hmem.mpr ⟨hj, hju⟩).resolve_left hne
    · rw [hother k' hk, h.mem]
      refine ⟨fun ⟨hj, hju⟩ => ⟨hj, fun heq => ?_, hju⟩, fun ⟨hj, _, hju⟩ => ⟨hj, hju⟩⟩
      rw [heq, hkey] at hj
      exact hk (some.inj (some.inj hj)).symm
  · by_cases hk : k' = k
    · subst hk
      exact hnodup.2
    · rw [hother k' hk]
      exact h.nodup k'

/-! ## Matches -/

theorem length_matchAll (pool : Pool κ) (keys : List (Option κ)) :
    (matchAll pool keys).1.length = keys.length := by
  induction keys generalizing pool with
  | nil => rfl
  | cons key keys ih =>
    rw [matchAll]
    split <;> simp [ih]

/-- What `matchAll` does with its first key. -/
theorem matchAll_cons {used : Set ℕ} {pool : Pool κ}
    (h : Holds next used pool) (key : Option κ) (keys : List (Option κ)) :
    ((∀ k, key = some k → pool.get k = []) ∧
      matchAll pool (key :: keys) = (none :: (matchAll pool keys).1, (matchAll pool keys).2)) ∨
      ∃ k i rest, key = some k ∧ next[i]? = some (some k) ∧ i ∉ used ∧
        Holds next (insert i used) rest ∧
        matchAll pool (key :: keys) = (some i :: (matchAll rest keys).1, (matchAll rest keys).2) := by
  cases hpop : key.bind pool.pop with
  | none =>
    refine Or.inl ⟨?_, by rw [matchAll, hpop]⟩
    rintro k rfl
    exact Pool.get_of_pop_none hpop
  | some found =>
    obtain ⟨i, rest⟩ := found
    obtain ⟨k, rfl, hk⟩ := bind_eq_some_iff.mp hpop
    obtain ⟨hkey, hfree, hrest⟩ := h.pop hk
    rw [matchAll, hpop]
    exact Or.inr ⟨k, i, rest, rfl, hkey, hfree, hrest, rfl⟩

theorem matchAll_holds : ∀ (keys : List (Option κ)) {used : Set ℕ}
    {pool : Pool κ}, Holds next used pool →
    Holds next (used ∪ {i | some i ∈ (matchAll pool keys).1}) (matchAll pool keys).2
  | [], used, pool, h => by simpa [matchAll] using h
  | key :: keys, used, pool, h => by
    rcases matchAll_cons h key keys with ⟨-, heq⟩ | ⟨k, i, rest, -, -, -, hrest, heq⟩
    · rw [heq]
      simpa using matchAll_holds keys h
    · rw [heq]
      have hset : used ∪ {j | some j ∈ some i :: (matchAll rest keys).1} =
          insert i used ∪ {j | some j ∈ (matchAll rest keys).1} := by
        ext j
        simp only [Set.mem_union, Set.mem_ofPred_eq, mem_cons, Option.some.injEq,
          Set.mem_insert_iff]
        tauto
      rw [hset]
      exact matchAll_holds keys hrest

theorem matchAll_key : ∀ (keys : List (Option κ)) {used : Set ℕ}
    {pool : Pool κ}, Holds next used pool → ∀ {p i : ℕ},
    (matchAll pool keys).1[p]? = some (some i) →
    i ∉ used ∧ ∃ k, keys[p]? = some (some k) ∧ next[i]? = some (some k)
  | [], used, pool, h, p, i, hp => by simp [matchAll] at hp
  | key :: keys, used, pool, h, p, i, hp => by
    rcases matchAll_cons h key keys with ⟨-, heq⟩ | ⟨k, j, rest, rfl, hkey, hfree, hrest, heq⟩
    · rw [heq] at hp
      cases p with
      | zero => simp at hp
      | succ p => exact matchAll_key keys h (p := p) (by simpa using hp)
    · rw [heq] at hp
      cases p with
      | zero =>
        obtain rfl : j = i := by simpa using hp
        exact ⟨hfree, k, rfl, hkey⟩
      | succ p =>
        obtain ⟨hnot, hrest⟩ := matchAll_key keys hrest (p := p) (by simpa using hp)
        exact ⟨fun hin => hnot (Set.mem_insert_of_mem j hin), hrest⟩

/-- A key without a match finds all positions under it taken. -/
theorem matchAll_exhausted {k : κ} {i : ℕ}
    (hi : next[i]? = some (some k)) : ∀ (keys : List (Option κ)) {used : Set ℕ} {pool : Pool κ},
    Holds next used pool → ∀ {p : ℕ}, (matchAll pool keys).1[p]? = some none →
    keys[p]? = some (some k) → i ∈ used ∨ some i ∈ (matchAll pool keys).1
  | [], used, pool, h, p, hp, _ => by simp [matchAll] at hp
  | key :: keys, used, pool, h, p, hp, hkey => by
    rcases matchAll_cons h key keys with ⟨hnone, heq⟩ | ⟨k', j, rest, -, -, -, hrest, heq⟩
    · rw [heq] at hp ⊢
      cases p with
      | zero =>
        have hfree := (h.mem k i).mpr.mt (by simp [hnone k (some.inj hkey)])
        exact Or.inl (by simpa [hi] using hfree)
      | succ p =>
        exact (matchAll_exhausted hi keys h (p := p) (by simpa using hp)
          (by simpa using hkey)).imp_right (mem_cons_of_mem _)
    · rw [heq] at hp ⊢
      cases p with
      | zero => simp at hp
      | succ p =>
        rcases matchAll_exhausted hi keys hrest (p := p) (by simpa using hp)
          (by simpa using hkey) with hused | hmem
        · rcases Set.mem_insert_iff.mp hused with rfl | hused
          · exact Or.inr mem_cons_self
          · exact Or.inl hused
        · exact Or.inr (mem_cons_of_mem _ hmem)

theorem matchAll_injective : ∀ (keys : List (Option κ)) {used : Set ℕ}
    {pool : Pool κ}, Holds next used pool → ∀ {p q i : ℕ},
    (matchAll pool keys).1[p]? = some (some i) → (matchAll pool keys).1[q]? = some (some i) → p = q
  | [], used, pool, h, p, q, i, hp, _ => by simp [matchAll] at hp
  | key :: keys, used, pool, h, p, q, i, hp, hq => by
    rcases matchAll_cons h key keys with ⟨-, heq⟩ | ⟨k, j, rest, rfl, -, -, hrest, heq⟩
    · rw [heq] at hp hq
      cases p with
      | zero => simp at hp
      | succ p =>
        cases q with
        | zero => simp at hq
        | succ q =>
          exact congrArg (· + 1) (matchAll_injective keys h (p := p) (by simpa using hp)
            (by simpa using hq))
    · rw [heq] at hp hq
      -- A later match is not the position that was just taken.
      have hlater : ∀ p, (matchAll rest keys).1[p]? ≠ some (some j) := fun p hp =>
        (matchAll_key keys hrest hp).1 (Set.mem_insert j used)
      cases p with
      | zero =>
        obtain rfl : j = i := by simpa using hp
        cases q with
        | zero => rfl
        | succ q => exact absurd (by simpa using hq) (hlater q)
      | succ p =>
        cases q with
        | zero =>
          obtain rfl : j = i := by simpa using hq
          exact absurd (by simpa using hp) (hlater p)
        | succ q =>
          exact congrArg (· + 1) (matchAll_injective keys hrest (p := p) (by simpa using hp)
            (by simpa using hq))

/-! ## The order of equal keys -/

/-- The positions under a key go up. -/
def Pool.Increasing (pool : Pool κ) : Prop := ∀ k, (pool.get k).Pairwise (· < ·)

theorem increasing_indexFrom : ∀ (keys done : List (Option κ)) (pool : Pool κ),
    Holds done ∅ pool → pool.Increasing → (indexFrom done.length pool keys).Increasing
  | [], _, _, _, h => h
  | none :: keys, done, pool, hholds, h => by
    have hrest := increasing_indexFrom keys (done ++ [none]) pool hholds.skip h
    rwa [length_append, length_singleton] at hrest
  | some k :: keys, done, pool, hholds, h => by
    have hpush : (pool.push k done.length).Increasing := by
      intro k'
      rw [Pool.push, Pool.get_insert]
      split_ifs
      · refine pairwise_append.mpr ⟨h k, pairwise_singleton _ _, fun i hi j hj => ?_⟩
        rw [mem_singleton.mp hj]
        exact (List.getElem?_eq_some_iff.mp ((hholds.mem k i).mp hi).1).1
      · exact h k'
    have hrest := increasing_indexFrom keys (done ++ [some k]) _ (hholds.push k) hpush
    rwa [length_append, length_singleton] at hrest

theorem Pool.Increasing.pop {pool rest : Pool κ} {k : κ} {i : ℕ} (h : pool.Increasing)
    (hpop : pool.pop k = some (i, rest)) : rest.Increasing ∧ ∀ j ∈ rest.get k, i < j := by
  obtain ⟨hget, hother⟩ := Pool.get_of_pop hpop
  have hk := h k
  rw [hget, pairwise_cons] at hk
  refine ⟨fun k' => ?_, hk.1⟩
  by_cases heq : k' = k
  · exact heq ▸ hk.2
  · rw [hother k' heq]
    exact h k'

/-- Equal keys get their positions in order. -/
theorem matchAll_increasing : ∀ (keys : List (Option κ)) {used : Set ℕ}
    {pool : Pool κ}, Holds next used pool → pool.Increasing → ∀ {p q i j : ℕ},
    (matchAll pool keys).1[p]? = some (some i) → (matchAll pool keys).1[q]? = some (some j) →
      p < q → keys[p]? = keys[q]? → i < j
  | [], _, _, _, _, p, _, i, _, hp, _, _, _ => by simp [matchAll] at hp
  | key :: keys, used, pool, h, hinc, p, q, i, j, hp, hq, hlt, hkey => by
    obtain ⟨q, rfl⟩ : ∃ q', q = q' + 1 := ⟨q - 1, by omega⟩
    cases hpop : key.bind pool.pop with
    | none =>
      rw [matchAll, hpop] at hp hq
      cases p with
      | zero => simp at hp
      | succ p =>
        exact matchAll_increasing keys h hinc (p := p) (q := q) (by simpa using hp)
          (by simpa using hq) (by omega) (by simpa using hkey)
    | some found =>
      obtain ⟨first, rest⟩ := found
      obtain ⟨k, rfl, hk⟩ := bind_eq_some_iff.mp hpop
      obtain ⟨-, -, hrest⟩ := h.pop hk
      obtain ⟨hincRest, hfirst⟩ := hinc.pop hk
      rw [matchAll, hpop] at hp hq
      have hq' : (matchAll rest keys).1[q]? = some (some j) := by simpa using hq
      cases p with
      | zero =>
        obtain rfl : first = i := by simpa using hp
        -- the later match was in the pool under the same key
        obtain ⟨hfree, k', hk', hnext⟩ := matchAll_key keys hrest hq'
        obtain rfl : k = k' := by simpa [hk'] using hkey
        exact hfirst j ((hrest.mem k j).mpr ⟨hnext, hfree⟩)
      | succ p =>
        exact matchAll_increasing keys hrest hincRest (p := p) (q := q) (by simpa using hp) hq'
          (by omega) (by simpa using hkey)

section Matches

variable (keys next : List (Option κ))

/-- The matches of the keys in `next`. -/
def pairs : List (Option ℕ) := (matchAll (index next) keys).1

/-- The positions of `next` with a key that no key is matched with. -/
def leftover : List ℕ := (matchAll (index next) keys).2.values

variable {keys next}

theorem mem_leftover {i : ℕ} : i ∈ leftover keys next ↔
    (∃ k, next[i]? = some (some k)) ∧ some i ∉ pairs keys next := by
  have h := matchAll_holds keys (holds_index next)
  simp only [leftover, Pool.mem_values, h.mem, Set.empty_union, Set.mem_ofPred_eq]
  exact ⟨fun ⟨k, hk, hi⟩ => ⟨⟨k, hk⟩, hi⟩, fun ⟨⟨k, hk⟩, hi⟩ => ⟨k, hk, hi⟩⟩

theorem pairs_key {p i : ℕ} (h : (pairs keys next)[p]? = some (some i)) :
    ∃ k, keys[p]? = some (some k) ∧ next[i]? = some (some k) :=
  (matchAll_key keys (holds_index next) h).2

theorem pairs_exhausted {p i : ℕ} {k : κ} (hp : (pairs keys next)[p]? = some none)
    (hkey : keys[p]? = some (some k)) (hi : next[i]? = some (some k)) : some i ∈ pairs keys next :=
  (matchAll_exhausted hi keys (holds_index next) hp hkey).resolve_left (Set.notMem_empty i)

theorem pairs_injective {p q i : ℕ} (hp : (pairs keys next)[p]? = some (some i))
    (hq : (pairs keys next)[q]? = some (some i)) : p = q :=
  matchAll_injective keys (holds_index next) hp hq

theorem pairs_increasing {p q i j : ℕ} (hp : (pairs keys next)[p]? = some (some i))
    (hq : (pairs keys next)[q]? = some (some j)) (hlt : p < q) (hkey : keys[p]? = keys[q]?) :
    i < j := by
  have hempty : Holds ([] : List (Option κ)) ∅ ∅ := ⟨by simp, by simp⟩
  have hinc := increasing_indexFrom next [] ∅ hempty fun k => by simp
  exact matchAll_increasing keys (holds_index next) hinc hp hq hlt hkey

end Matches

end KeyedMatch
