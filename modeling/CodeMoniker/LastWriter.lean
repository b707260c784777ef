import Mathlib

/-!
# The last shard with a value wins

Shards stand in a row, each with at most one value for a key. A cell that takes the shards one after
another ends with the value of the last shard that has one (`lastSome`).

A refresh takes the changed shards out of the cell and puts them in again, one after another
(`Refresh.cell`). A value is dropped with its shard, and no earlier value comes back. So the cell
does not always end with the last value : `Refresh.cell_eq_lastSome_iff` says exactly when it does.
-/

namespace LastWriter

open Option

variable {β : Type}

/-- The value of the last of `n` shards that has one. -/
def lastSome (values : ℕ → Option β) : ℕ → Option β
  | 0 => none
  | n + 1 => (values n).or (lastSome values n)

variable {values : ℕ → Option β}

theorem lastSome_eq_some {b : β} : ∀ {n : ℕ}, lastSome values n = some b ↔
      ∃ i < n, values i = some b ∧ ∀ j, i < j → j < n → values j = none
  | 0 => by simp [lastSome]
  | n + 1 => by
    rw [lastSome, or_eq_some_iff, lastSome_eq_some]
    constructor
    · rintro (h | ⟨hnone, i, hi, hb, hlater⟩)
      · exact ⟨n, by omega, h, fun j hj hjn => by omega⟩
      · refine ⟨i, by omega, hb, fun j hj hjn => ?_⟩
        rcases Nat.lt_or_ge j n with hlt | hge
        · exact hlater j hj hlt
        · obtain rfl : j = n := by omega
          exact hnone
    · rintro ⟨i, hi, hb, hlater⟩
      rcases Nat.lt_or_ge i n with hlt | hge
      · exact Or.inr ⟨hlater n hlt (by omega), i, hlt, hb, fun j hj hjn => hlater j hj (by omega)⟩
      · obtain rfl : i = n := by omega
        exact Or.inl hb

theorem lastSome_eq_none : ∀ {n : ℕ}, lastSome values n = none ↔ ∀ i < n, values i = none
  | 0 => by simp [lastSome]
  | n + 1 => by
    rw [lastSome, or_eq_none_iff, lastSome_eq_none]
    constructor
    · rintro ⟨hlast, hbefore⟩ i hi
      rcases Nat.lt_or_ge i n with hlt | hge
      · exact hbefore i hlt
      · obtain rfl : i = n := by omega
        exact hlast
    · exact fun h => ⟨h n (by omega), fun i hi => h i (by omega)⟩

/-- Shards without a value at the end add nothing. -/
theorem lastSome_of_none {n : ℕ} :
    ∀ {m : ℕ}, n ≤ m → (∀ i, n ≤ i → values i = none) → lastSome values m = lastSome values n
  | 0, hle, _ => by rw [Nat.le_zero.mp hle]
  | m + 1, hle, hnone => by
    rcases Nat.lt_or_ge m n with hlt | hge
    · rw [show m + 1 = n by omega]
    · rw [lastSome, hnone m hge, none_or, lastSome_of_none hge hnone]

/-- A shard with a value is not behind the last one. -/
theorem le_of_later {i j n : ℕ}
    (hlater : ∀ j, i < j → j < n → values j = none) (hj : values j ≠ none) (hjn : j < n) :
    j ≤ i := by
  by_contra hlt
  exact hj (hlater j (by omega) hjn)

/-- What a refresh replaces. The values of different shards differ. -/
structure Refresh (β : Type) where
  changed : ℕ → Prop
  before : ℕ → Option β
  after : ℕ → Option β
  /-- the values that go with a shard -/
  drops : ℕ → Set β
  kept : ∀ i, ¬changed i → after i = before i
  dropped : ∀ i b, before i = some b → b ∈ drops i
  disjoint : ∀ i j b, b ∈ drops i → b ∈ drops j → i = j
  fresh : ∀ i j b, changed i → after i = some b → b ∈ drops j → i = j
  distinct : ∀ i j b, after i = some b → after j = some b → i = j

namespace Refresh

variable (r : Refresh β)

open Classical in
/-- The cell once the shards before `i` are done, where `n` shards are there in all. -/
noncomputable def cell (n : ℕ) : ℕ → Option β
  | 0 => lastSome r.before n
  | i + 1 =>
    if r.changed i then
      (r.after i).or (if ∃ b ∈ r.drops i, cell n i = some b then none else cell n i)
    else cell n i

open Classical in
/-- The values that are put in. -/
noncomputable def put (i : ℕ) : Option β := if r.changed i then r.after i else none

/-- The old value has gone with one of the shards before `i`. -/
def Gone (n i : ℕ) : Prop :=
  ∃ j < i, r.changed j ∧ ∃ b ∈ r.drops j, lastSome r.before n = some b

/-- No shard that stays has a value behind the last new one, and none has a value left over where
the old value goes. -/
structure Undisturbed (n : ℕ) : Prop where
  last : ∀ i j, i < j → j < n → r.changed i → r.after i ≠ none → ¬r.changed j → r.after j ≠ none →
    ∃ k, j < k ∧ k < n ∧ r.changed k ∧ r.after k ≠ none
  survivor : ∀ i j, j < i → i < n → r.changed i → r.before i ≠ none → ¬r.changed j →
    r.after j ≠ none → (∃ k < n, r.changed k ∧ r.after k ≠ none) ∨
      ∃ k, i < k ∧ k < n ∧ ¬r.changed k ∧ r.after k ≠ none

variable {r} {n : ℕ}

theorem put_eq_some {i : ℕ} {b : β} : r.put i = some b ↔ r.changed i ∧ r.after i = some b := by
  unfold put
  split_ifs with h
  · simp [h]
  · simp [h]

theorem put_eq_none {i : ℕ} : r.put i = none ↔ (r.changed i → r.after i = none) := by
  unfold put
  split_ifs with h
  · simp [h]
  · simp [h]

theorem gone_succ {i : ℕ} : r.Gone n (i + 1) ↔
    r.Gone n i ∨ r.changed i ∧ ∃ b ∈ r.drops i, lastSome r.before n = some b := by
  unfold Gone
  constructor
  · rintro ⟨j, hj, hchanged, hb⟩
    rcases Nat.lt_or_ge j i with hlt | hge
    · exact Or.inl ⟨j, hlt, hchanged, hb⟩
    · obtain rfl : j = i := by omega
      exact Or.inr ⟨hchanged, hb⟩
  · rintro (⟨j, hj, hchanged, hb⟩ | ⟨hchanged, hb⟩)
    · exact ⟨j, by omega, hchanged, hb⟩
    · exact ⟨i, by omega, hchanged, hb⟩

/-- A new value is not among those that go with a later shard. -/
theorem notMem_drops {i : ℕ} {b : β} (h : lastSome r.put i = some b) : b ∉ r.drops i := by
  intro hb
  obtain ⟨j, hj, hput, -⟩ := lastSome_eq_some.mp h
  obtain ⟨hchanged, hafter⟩ := put_eq_some.mp hput
  have := r.fresh j i b hchanged hafter hb
  omega

open Classical in
/-- The cell holds the last new value, or else the old one unless it has gone. -/
theorem cell_eq : ∀ i, r.cell n i =
    (lastSome r.put i).or (if r.Gone n i then none else lastSome r.before n)
  | 0 => by
    have hgone : ¬r.Gone n 0 := fun ⟨j, hj, _⟩ => by omega
    simp [cell, lastSome, hgone]
  | i + 1 => by
    rw [cell, lastSome]
    by_cases hchanged : r.changed i
    · have hput : r.put i = r.after i := if_pos hchanged
      rw [if_pos hchanged, hput, Option.or_assoc]
      refine congrArg (r.after i).or ?_
      rw [cell_eq i]
      cases hlast : lastSome r.put i with
      | some b =>
        have hstays : ¬∃ b' ∈ r.drops i, some b = some b' := by
          rintro ⟨b', hb', heq⟩
          obtain rfl := some.inj heq
          exact notMem_drops hlast hb'
        simp only [some_or]
        exact if_neg hstays
      | none =>
        simp only [none_or]
        by_cases hgone : r.Gone n i
        · have hgone' : r.Gone n (i + 1) := gone_succ.mpr (Or.inl hgone)
          simp only [if_pos hgone, if_pos hgone', ite_self]
        · simp only [gone_succ, hgone, hchanged, false_or, true_and, if_false]
    · have hput : r.put i = none := put_eq_none.mpr fun h => absurd h hchanged
      have hgone : r.Gone n (i + 1) ↔ r.Gone n i := by simp [gone_succ, hchanged]
      simp only [if_neg hchanged, hput, none_or, cell_eq i, hgone]

/-- With a new value in the cell, no shard that stays may stand behind it. -/
theorem lastSome_put_iff {b : β} (h : lastSome r.put n = some b) :
    lastSome r.after n = some b ↔ r.Undisturbed n := by
  obtain ⟨i, hi, hput, hlater⟩ := lastSome_eq_some.mp h
  obtain ⟨hchanged, hafter⟩ := put_eq_some.mp hput
  have hnew : ∃ k < n, r.changed k ∧ r.after k ≠ none := ⟨i, hi, hchanged, by simp [hafter]⟩
  rw [lastSome_eq_some]
  constructor
  · rintro ⟨i', hi', hafter', hlater'⟩
    obtain rfl := r.distinct i i' b hafter hafter'
    refine ⟨fun i' j hij hj _ _ hstays hsome => ?_, fun _ _ _ _ _ _ _ _ => Or.inl hnew⟩
    have hle := le_of_later hlater' hsome hj
    have hne : j ≠ i := fun heq => hstays (heq ▸ hchanged)
    exact ⟨i, by omega, hi, hchanged, by simp [hafter]⟩
  · intro hundisturbed
    refine ⟨i, hi, hafter, fun j hij hj => ?_⟩
    have hstays : r.changed j → r.after j = none := put_eq_none.mp (hlater j hij hj)
    by_contra hsome
    obtain ⟨k, hjk, hk, hchanged', hsome'⟩ := hundisturbed.last i j hij hj hchanged
      (by simp [hafter]) (fun hchanged' => hsome (hstays hchanged')) hsome
    exact hsome' (put_eq_none.mp (hlater k (by omega) hk) hchanged')

open Classical in
/-- Without a new value the cell keeps the old one, which has to be missing where it goes. -/
theorem lastSome_before_iff (h : lastSome r.put n = none) :
    (if r.Gone n n then none else lastSome r.before n) = lastSome r.after n ↔ r.Undisturbed n := by
  have hnone : ∀ k < n, r.changed k → r.after k = none := fun k hk =>
    put_eq_none.mp (lastSome_eq_none.mp h k hk)
  have hbefore : ∀ k < n, r.after k ≠ none → r.before k = r.after k := fun k hk hsome =>
    (r.kept k fun hchanged => hsome (hnone k hk hchanged)).symm
  constructor
  · intro heq
    refine ⟨fun i j hij hj hchanged hsome => absurd (hnone i (by omega) hchanged) hsome,
      fun i j hji hi hchanged hold hstays hsome => Or.inr ?_⟩
    have hlast : lastSome r.after n ≠ none := fun hlast =>
      hsome (lastSome_eq_none.mp hlast j (by omega))
    by_cases hgone : r.Gone n n
    · rw [if_pos hgone] at heq
      exact absurd heq.symm hlast
    · rw [if_neg hgone] at heq
      obtain ⟨b, hb⟩ := ne_none_iff_exists'.mp (heq ▸ hlast)
      obtain ⟨w, hw, hvalue, hlater⟩ := lastSome_eq_some.mp hb
      have hkept : ¬r.changed w := fun hchanged' =>
        hgone ⟨w, hw, hchanged', b, r.dropped w b hvalue, hb⟩
      have hle := le_of_later hlater hold hi
      have hne : i ≠ w := fun heq => hkept (heq ▸ hchanged)
      exact ⟨w, by omega, hw, hkept, by simp [r.kept w hkept, hvalue]⟩
  · intro hundisturbed
    by_cases hgone : r.Gone n n
    · rw [if_pos hgone, eq_comm, lastSome_eq_none]
      intro j hj
      by_contra hsome
      obtain ⟨i, hi, hchanged, b, hb, hlast⟩ := hgone
      obtain ⟨w, hw, hvalue, hlater⟩ := lastSome_eq_some.mp hlast
      obtain rfl := r.disjoint i w b hb (r.dropped w b hvalue)
      have hstays : ¬r.changed j := fun hchanged' => hsome (hnone j hj hchanged')
      have hle := le_of_later hlater (hbefore j hj hsome ▸ hsome) hj
      have hne : j ≠ i := fun heq => hstays (heq ▸ hchanged)
      rcases hundisturbed.survivor i j (by omega) hi hchanged (by simp [hvalue]) hstays hsome with
        ⟨k, hk, hchanged', hsome'⟩ | ⟨k, hik, hk, -, hsome'⟩
      · exact hsome' (hnone k hk hchanged')
      · have := le_of_later hlater (hbefore k hk hsome' ▸ hsome') hk
        omega
    · rw [if_neg hgone]
      cases hlast : lastSome r.before n with
      | none =>
        rw [eq_comm, lastSome_eq_none]
        intro j hj
        by_contra hsome
        exact hsome (hbefore j hj hsome ▸ lastSome_eq_none.mp hlast j hj)
      | some b =>
        obtain ⟨w, hw, hvalue, hlater⟩ := lastSome_eq_some.mp hlast
        have hkept : ¬r.changed w := fun hchanged =>
          hgone ⟨w, hw, hchanged, b, r.dropped w b hvalue, hlast⟩
        symm
        refine lastSome_eq_some.mpr ⟨w, hw, (r.kept w hkept).trans hvalue, fun j hij hj => ?_⟩
        by_contra hsome
        exact hsome (hbefore j hj hsome ▸ hlater j hij hj)

/-- The refreshed cell ends as if all shards had been put in anew. -/
theorem cell_eq_lastSome_iff : r.cell n n = lastSome r.after n ↔ r.Undisturbed n := by
  classical
  rw [cell_eq]
  cases hput : lastSome r.put n with
  | some b =>
    rw [some_or, eq_comm]
    exact lastSome_put_iff hput
  | none =>
    rw [none_or]
    exact lastSome_before_iff hput

end Refresh

end LastWriter
