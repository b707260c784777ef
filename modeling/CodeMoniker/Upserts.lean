import Mathlib

/-!
# Lists merged by key

Elements may have a key. `merge` puts the elements of one list into another one by one : an element
takes the place of the first one with its key, or goes to the end. Merging one list after the other
is merging them in a row (`merge_append`), and only the last element of each key counts
(`merge_onePerKey`).

The merge of two lists replaces every element whose key occurs in the second list, and keeps keys
apart, if the first list does not repeat a key (`merge_eq_replaceAll_iff`, `nodup_keys_merge`). It
is associative but for keys that the middle list repeats (`merge_assoc_iff`).
-/

namespace Upserts

open List
open Option (bind_some getD_none or_none some_or)

variable {R K : Type} [DecidableEq K] (key : R → Option K)

def upsert (r : R) : List R → List R
  | [] => [r]
  | b :: bs => if (key r).isSome ∧ key b = key r then r :: bs else b :: upsert r bs

def merge (base ov : List R) : List R := ov.foldl (fun base r => upsert key r base) base

def keys (l : List R) : List K := l.filterMap key

/-- The last element with a key. -/
def lastOf (k : K) : List R → Option R
  | [] => none
  | r :: l => (lastOf k l).or (if key r = some k then some r else none)

/-- The last element of `ov` with the key of `b`, or `b`. -/
def latest (ov : List R) (b : R) : R := ((key b).bind fun k => lastOf key k ov).getD b

/-- The elements that do not have the key `k`. -/
def without (k : Option K) (l : List R) : List R := l.filter fun r => ¬(k.isSome ∧ key r = k)

/-- Each key once, at its first place and with its last element. -/
def onePerKey : List R → List R
  | [] => []
  | r :: l => latest key l r :: onePerKey (without key (key r) l)
termination_by l => l.length
decreasing_by
  rw [List.length_cons]
  exact Nat.lt_succ_of_le (List.length_filter_le _ _)

/-- The elements of `ov` without a key of `base`. -/
def fresh (base ov : List R) : List R := ov.filter fun r => (key r).all (· ∉ keys key base)

/-- Every element of `base` replaced that `ov` has the key of, and what is left of `ov`. -/
def replaceAll (base ov : List R) : List R :=
  base.map (latest key ov) ++ onePerKey key (fresh key base ov)

variable {key}

/-! ## Elements of a key -/

variable {k : K} {l : List R}

theorem key_of_lastOf {r : R} (h : lastOf key k l = some r) : key r = some k := by
  induction l with
  | nil => cases h
  | cons a l ih =>
    rcases Option.or_eq_some_iff.mp h with h | ⟨-, h⟩
    · exact ih h
    · split_ifs at h with hkey
      exact Option.some.inj h ▸ hkey

theorem lastOf_eq_none : lastOf key k l = none ↔ k ∉ keys key l := by
  induction l with
  | nil => simp [lastOf, keys]
  | cons r l ih =>
    rw [lastOf, Option.or_eq_none_iff, ih]
    by_cases hkey : key r = some k
    · simp [keys, hkey]
    · cases hr : key r with
      | none => simp [keys, hr]
      | some k' =>
        have hne : k ≠ k' := fun heq => hkey (heq ▸ hr)
        simp [keys, hr, hne, hne.symm]

theorem lastOf_append {l m : List R} :
    lastOf key k (l ++ m) = (lastOf key k m).or (lastOf key k l) := by
  induction l with
  | nil => simp [lastOf]
  | cons r l ih => rw [cons_append, lastOf, lastOf, ih, Option.or_assoc]

theorem key_latest (ov : List R) (b : R) : key (latest key ov b) = key b := by
  unfold latest
  cases hb : key b with
  | none => exact hb
  | some k =>
    rw [bind_some]
    cases hlast : lastOf key k ov with
    | none => exact hb
    | some r => exact key_of_lastOf hlast

theorem latest_of_some {ov : List R} {b : R} {k : K} (h : key b = some k) :
    latest key ov b = (lastOf key k ov).getD b := by
  rw [latest, h, bind_some]

theorem latest_of_none {ov : List R} {b : R} (h : key b = none) : latest key ov b = b := by
  rw [latest, h]
  rfl

theorem without_cons {k : Option K} {r : R} {l : List R} : without key k (r :: l) =
    if k.isSome ∧ key r = k then without key k l else r :: without key k l := by
  unfold without
  rw [filter_cons]
  split_ifs with h h' <;> simp_all

theorem without_comm (k k' : Option K) (l : List R) :
    without key k (without key k' l) = without key k' (without key k l) := by
  rw [without, without, without, without, filter_filter, filter_filter]
  exact filter_congr fun r _ => Bool.and_comm _ _

theorem without_idem (k : Option K) (l : List R) :
    without key k (without key k l) = without key k l := by
  rw [without, without, filter_filter]
  exact filter_congr fun r _ => Bool.and_self _

theorem lastOf_without_self (k : K) (l : List R) :
    lastOf key k (without key (some k) l) = none := by
  rw [lastOf_eq_none, keys, mem_filterMap]
  rintro ⟨r, hr, hkey⟩
  simp [without, hkey] at hr

theorem lastOf_without {k' : Option K} (h : k' ≠ some k) (l : List R) :
    lastOf key k (without key k' l) = lastOf key k l := by
  induction l with
  | nil => rfl
  | cons r l ih =>
    rw [without_cons]
    split_ifs with hr
    · have hkey : key r ≠ some k := hr.2 ▸ h
      rw [ih, lastOf, if_neg hkey, or_none]
    · rw [lastOf, lastOf, ih]

theorem latest_without {k : Option K} {b : R} (h : key b ≠ k ∨ key b = none) (l : List R) :
    latest key (without key k l) b = latest key l b := by
  cases hb : key b with
  | none => rw [latest_of_none hb, latest_of_none hb]
  | some k' =>
    have hne : k ≠ some k' := by
      rintro rfl
      rcases h with h | h
      · exact h hb
      · cases hb.symm.trans h
    rw [latest_of_some hb, latest_of_some hb, lastOf_without hne]

/-! ## One element for each key -/

theorem onePerKey_nil : onePerKey key ([] : List R) = [] := by rw [onePerKey]

theorem onePerKey_cons (r : R) (l : List R) :
    onePerKey key (r :: l) = latest key l r :: onePerKey key (without key (key r) l) := by
  rw [onePerKey]

theorem length_without_le (key : R → Option K) (k : Option K) (l : List R) :
    (without key k l).length ≤ l.length :=
  length_filter_le _ l

/-- An induction along the steps of `onePerKey`. -/
theorem withoutInduction (key : R → Option K) {motive : List R → Prop} (nil : motive [])
    (cons : ∀ r l, motive (without key (key r) l) → motive (r :: l)) (l : List R) : motive l := by
  induction hn : l.length using Nat.strongRecOn generalizing l with
  | _ n ih =>
    cases l with
    | nil => exact nil
    | cons r l =>
      have hle := length_without_le key (key r) l
      rw [length_cons] at hn
      exact cons r l (ih _ (by omega) _ rfl)

theorem lastOf_onePerKey (k : K) (l : List R) :
    lastOf key k (onePerKey key l) = lastOf key k l := by
  induction l using withoutInduction key with
  | nil => rw [onePerKey_nil]
  | cons r l ih =>
    have hlatest : key (latest key l r) = key r := key_latest l r
    rw [onePerKey_cons, lastOf, lastOf, ih, hlatest]
    by_cases hkey : key r = some k
    · rw [if_pos hkey, if_pos hkey, hkey, lastOf_without_self, Option.none_or, latest_of_some hkey]
      cases lastOf key k l <;> rfl
    · rw [if_neg hkey, if_neg hkey, or_none, or_none, lastOf_without hkey]

theorem mem_keys_onePerKey : k ∈ keys key (onePerKey key l) ↔ k ∈ keys key l := by
  rw [← not_iff_not, ← lastOf_eq_none, ← lastOf_eq_none, lastOf_onePerKey]

theorem nodup_keys_onePerKey (l : List R) : (keys key (onePerKey key l)).Nodup := by
  induction l using withoutInduction key with
  | nil =>
    rw [onePerKey_nil]
    exact nodup_nil
  | cons r l ih =>
    rw [onePerKey_cons]
    cases hr : key r with
    | none =>
      rw [hr] at ih
      rw [keys, filterMap_cons_none ((key_latest l r).trans hr)]
      exact ih
    | some k =>
      rw [hr] at ih
      rw [keys, filterMap_cons_some ((key_latest l r).trans hr)]
      refine nodup_cons.mpr ⟨fun hk => ?_, ih⟩
      exact lastOf_eq_none.mp (lastOf_without_self k l) (mem_keys_onePerKey.mp hk)

theorem without_eq_self {k : Option K} {l : List R} (h : ∀ k' ∈ k, k' ∉ keys key l) :
    without key k l = l := by
  refine filter_eq_self.mpr fun r hr => ?_
  simp only [not_and, decide_eq_true_eq]
  intro hk hkey
  obtain ⟨k', rfl⟩ := Option.isSome_iff_exists.mp hk
  exact h k' rfl (mem_filterMap.mpr ⟨r, hr, hkey⟩)

/-- A list stays as it is exactly when it does not repeat a key. -/
theorem onePerKey_eq_self_iff : onePerKey key l = l ↔ (keys key l).Nodup := by
  constructor
  · intro h
    exact h ▸ nodup_keys_onePerKey l
  · intro h
    induction l with
    | nil => exact onePerKey_nil
    | cons r l ih =>
      have hrest : (keys key l).Nodup := h.sublist ((sublist_cons_self r l).filterMap key)
      have hnew : ∀ k ∈ key r, k ∉ keys key l := by
        intro k hk
        rw [keys, filterMap_cons_some hk] at h
        exact (nodup_cons.mp h).1
      have hlatest : latest key l r = r := by
        cases hr : key r with
        | none => exact latest_of_none hr
        | some k => rw [latest_of_some hr, lastOf_eq_none.mpr (hnew k hr), getD_none]
      rw [onePerKey_cons, without_eq_self hnew, ih hrest, hlatest]

theorem onePerKey_onePerKey (l : List R) : onePerKey key (onePerKey key l) = onePerKey key l :=
  onePerKey_eq_self_iff.mpr (nodup_keys_onePerKey l)

theorem without_onePerKey (k : Option K) (l : List R) :
    without key k (onePerKey key l) = onePerKey key (without key k l) := by
  induction l using withoutInduction key with
  | nil => rw [onePerKey_nil]; exact onePerKey_nil.symm
  | cons r l ih =>
    have hlatest : key (latest key l r) = key r := key_latest l r
    rw [onePerKey_cons, without_cons, without_cons, hlatest]
    split_ifs with hr
    · rw [ih, hr.2, without_idem]
    · have hne : key r ≠ k ∨ key r = none := by
        rcases k with _ | k
        · exact (em (key r = none)).symm
        · exact Or.inl fun heq => hr ⟨rfl, heq⟩
      rw [ih, onePerKey_cons, latest_without hne, without_comm]

/-! ## Merging -/

@[simp] theorem merge_nil (base : List R) : merge key base [] = base := rfl

theorem merge_cons_right (base : List R) (r : R) (ov : List R) :
    merge key base (r :: ov) = merge key (upsert key r base) ov := rfl

/-- Merging one list after the other is merging them in a row. -/
theorem merge_append (base ov ov' : List R) :
    merge key base (ov ++ ov') = merge key (merge key base ov) ov' := foldl_append

/-- The first element takes what has its key, the others the rest. -/
theorem merge_cons (b : R) (bs ov : List R) : merge key (b :: bs) ov =
    latest key ov b :: merge key bs (without key (key b) ov) := by
  induction ov generalizing b bs with
  | nil =>
    have hlatest : latest key [] b = b := by
      cases hb : key b with
      | none => exact latest_of_none hb
      | some k => exact latest_of_some hb
    rw [merge_nil, hlatest]
    rfl
  | cons r ov ih =>
    rw [merge_cons_right, upsert, without_cons]
    split_ifs with hr hr' hr'
    · obtain ⟨k, hk⟩ := Option.isSome_iff_exists.mp hr.1
      have hb : key b = some k := hr.2.trans hk
      have hlatest : latest key ov r = latest key (r :: ov) b := by
        rw [latest_of_some hk, latest_of_some hb, lastOf, if_pos hk]
        cases lastOf key k ov <;> rfl
      rw [ih, hlatest, hr.2]
    · exact absurd ⟨hr.2 ▸ hr.1, hr.2.symm⟩ hr'
    · exact absurd ⟨hr'.2 ▸ hr'.1, hr'.2.symm⟩ hr
    · have hlatest : latest key ov b = latest key (r :: ov) b := by
        cases hb : key b with
        | none => rw [latest_of_none hb, latest_of_none hb]
        | some k =>
          have hkey : key r ≠ some k := fun hkey => hr' ⟨by rw [hb]; rfl, hkey.trans hb.symm⟩
          rw [latest_of_some hb, latest_of_some hb, lastOf, if_neg hkey, or_none]
      rw [ih, hlatest, merge_cons_right]

theorem merge_nil_left (ov : List R) : merge key [] ov = onePerKey key ov := by
  induction ov using withoutInduction key with
  | nil => exact onePerKey_nil.symm
  | cons r ov ih => rw [merge_cons_right, upsert, merge_cons, ih, onePerKey_cons]

/-- Only the last element of each key counts. -/
theorem merge_onePerKey (base ov : List R) :
    merge key base (onePerKey key ov) = merge key base ov := by
  induction base generalizing ov with
  | nil => rw [merge_nil_left, merge_nil_left, onePerKey_onePerKey]
  | cons b bs ih =>
    have hlatest : latest key (onePerKey key ov) b = latest key ov b := by
      unfold latest
      simp only [lastOf_onePerKey]
    rw [merge_cons, merge_cons, without_onePerKey, ih, hlatest]

theorem upsert_map {S : Type} (f : S → R) (r : S) (l : List S) :
    upsert key (f r) (l.map f) = (upsert (key ∘ f) r l).map f := by
  induction l with
  | nil => rfl
  | cons b bs ih =>
    rw [map_cons, upsert, upsert, ih]
    split_ifs with h h' h'
    · rfl
    · exact absurd h h'
    · exact absurd h' h
    · rfl

/-- What carries the keys may be wrapped. -/
theorem merge_map {S : Type} (f : S → R) (base ov : List S) :
    merge key (base.map f) (ov.map f) = (merge (key ∘ f) base ov).map f := by
  induction ov generalizing base with
  | nil => rfl
  | cons r ov ih => rw [map_cons, merge_cons_right, merge_cons_right, upsert_map, ih]

/-! ## The closed form -/

/-- The first element of each key replaced that `ov` has the key of. -/
def replaceFirst (key : R → Option K) : List R → List R → List R
  | [], _ => []
  | b :: bs, ov => latest key ov b :: replaceFirst key bs (without key (key b) ov)

theorem keys_replaceFirst (base ov : List R) :
    keys key (replaceFirst key base ov) = keys key base := by
  induction base generalizing ov with
  | nil => rfl
  | cons b bs ih =>
    have hlatest : key (latest key ov b) = key b := key_latest ov b
    have hrest : (replaceFirst key bs (without key (key b) ov)).filterMap key =
        bs.filterMap key := ih _
    rw [keys, keys, replaceFirst, filterMap_cons, filterMap_cons, hlatest, hrest]

theorem fresh_cons (b : R) (bs ov : List R) :
    fresh key (b :: bs) ov = fresh key bs (without key (key b) ov) := by
  rw [fresh, fresh, without, filter_filter]
  refine filter_congr fun r _ => ?_
  cases hr : key r with
  | none =>
    cases hb : key b <;> simp
  | some k =>
    cases hb : key b with
    | none => simp [keys, hb]
    | some k' => simp [keys, hb, Bool.and_comm, eq_comm]

theorem merge_eq (base ov : List R) :
    merge key base ov = replaceFirst key base ov ++ onePerKey key (fresh key base ov) := by
  induction base generalizing ov with
  | nil =>
    have hfresh : fresh key [] ov = ov := by
      refine filter_eq_self.mpr fun r _ => ?_
      cases key r <;> simp [keys]
    rw [merge_nil_left, hfresh]
    rfl
  | cons b bs ih => rw [merge_cons, ih, fresh_cons, replaceFirst, cons_append]

theorem keys_merge (base ov : List R) : keys key (merge key base ov) =
    keys key base ++ keys key (onePerKey key (fresh key base ov)) := by
  rw [merge_eq, keys, filterMap_append]
  exact congrArg (· ++ _) (keys_replaceFirst base ov)

variable {base ov : List R}

/-- A merge repeats a key only where the first list does. -/
theorem nodup_keys_merge : (keys key (merge key base ov)).Nodup ↔ (keys key base).Nodup := by
  rw [keys_merge, nodup_append]
  refine ⟨And.left, fun h => ⟨h, nodup_keys_onePerKey _, fun k hk k' hk' => ?_⟩⟩
  rintro rfl
  obtain ⟨r, hr, hkey⟩ := mem_filterMap.mp (mem_keys_onePerKey.mp hk')
  have hnew := (mem_filter.mp hr).2
  rw [hkey] at hnew
  simp [hk] at hnew

/-! ## Replacing every element of a key -/

/-- Where an element repeats the key of an earlier one, it already is the last of `ov`. -/
def RepeatsSettled (key : R → Option K) (base ov : List R) : Prop :=
  base.Pairwise fun b b' => ∀ k, key b = some k → key b' = some k →
    ∀ r, lastOf key k ov = some r → b' = r

/-- An element whose key is not in `ov` stays where it is. -/
theorem eq_of_mem_zip_replaceFirst {b c : R}
    (h : (b, c) ∈ base.zip (replaceFirst key base ov)) {k : K} (hb : key b = some k)
    (hk : lastOf key k ov = none) : c = b := by
  induction base generalizing ov with
  | nil => simp at h
  | cons a base ih =>
    rw [replaceFirst, zip_cons_cons] at h
    rcases mem_cons.mp h with h | h
    · obtain ⟨rfl, rfl⟩ := Prod.mk.inj h
      rw [latest_of_some hb, hk, getD_none]
    · refine ih h (lastOf_eq_none.mpr fun hmem => lastOf_eq_none.mp hk ?_)
      exact (filter_sublist.filterMap key).subset hmem

theorem replaceFirst_eq_map_iff :
    replaceFirst key base ov = base.map (latest key ov) ↔ RepeatsSettled key base ov := by
  induction base generalizing ov with
  | nil => simp [replaceFirst, RepeatsSettled]
  | cons b bs ih =>
    have hlast : ∀ {k}, key b ≠ some k →
        lastOf key k (without key (key b) ov) = lastOf key k ov := fun h => lastOf_without h ov
    -- what the later elements see of `ov` differs for the key of `b` only
    have hsettled : (∀ b' ∈ bs, ∀ k, key b = some k → key b' = some k →
        ∀ r, lastOf key k ov = some r → b' = r) →
        (bs.map (latest key (without key (key b) ov)) = bs.map (latest key ov) ∧
          (RepeatsSettled key bs (without key (key b) ov) ↔ RepeatsSettled key bs ov)) := by
      intro hall
      constructor
      · refine map_congr_left fun b' hb' => ?_
        cases hkey : key b' with
        | none => rw [latest_of_none hkey, latest_of_none hkey]
        | some k =>
          rw [latest_of_some hkey, latest_of_some hkey]
          by_cases hb : key b = some k
          · rw [hb, lastOf_without_self]
            cases hr : lastOf key k ov with
            | none => rfl
            | some r => exact hall b' hb' k hb hkey r hr
          · rw [hlast hb]
      · refine List.Pairwise.iff_of_mem fun {b₁ b₂} _ h₂ => ?_
        refine forall_congr' fun k => forall_congr' fun _ => forall_congr' fun hk₂ => ?_
        by_cases hb : key b = some k
        · refine iff_of_true (fun r hr => ?_) fun r hr => hall b₂ h₂ k hb hk₂ r hr
          rw [hb, lastOf_without_self] at hr
          cases hr
        · rw [hlast hb]
    rw [replaceFirst, map_cons, cons.injEq, RepeatsSettled, pairwise_cons]
    constructor
    · rintro ⟨-, h⟩
      have hall : ∀ b' ∈ bs, ∀ k, key b = some k → key b' = some k →
          ∀ r, lastOf key k ov = some r → b' = r := by
        intro b' hb' k hb hkey r hr
        have hzip : (b', latest key ov b') ∈
            bs.zip (replaceFirst key bs (without key (key b) ov)) := by
          rw [h, ← map_prod_left_eq_zip]
          exact mem_map_of_mem hb'
        have heq := eq_of_mem_zip_replaceFirst hzip hkey (hb ▸ lastOf_without_self k ov)
        rw [latest_of_some hkey, hr, Option.getD_some] at heq
        exact heq.symm
      obtain ⟨hmap, hiff⟩ := hsettled hall
      exact ⟨hall, hiff.mp (ih.mp (h.trans hmap.symm))⟩
    · rintro ⟨hall, hrest⟩
      obtain ⟨hmap, hiff⟩ := hsettled hall
      exact ⟨rfl, (ih.mpr (hiff.mpr hrest)).trans hmap⟩

/-- A merge replaces by key exactly when the repeats of the first list are settled. -/
theorem merge_eq_replaceAll_iff :
    merge key base ov = replaceAll key base ov ↔ RepeatsSettled key base ov := by
  rw [merge_eq, replaceAll, append_left_inj, replaceFirst_eq_map_iff]

/-! ## Associativity -/

theorem find?_upsert (k : K) (r : R) (l : List R) :
    (upsert key r l).find? (fun a => key a = some k) =
      if key r = some k then some r else l.find? fun a => key a = some k := by
  induction l with
  | nil => by_cases hr : key r = some k <;> simp [upsert, hr]
  | cons b bs ih =>
    rw [upsert]
    split_ifs with hsame hr hr
    · simp [hr]
    · rw [← hsame.2] at hr
      simp [hr, hsame.2 ▸ hr]
    · have hb : key b ≠ some k := fun hb => hsame ⟨by rw [hr]; rfl, hb.trans hr.symm⟩
      rw [find?_cons_of_neg (by simpa using hb), ih, if_pos hr]
    · by_cases hb : key b = some k
      · simp [hb]
      · rw [find?_cons_of_neg (by simpa using hb), ih, if_neg hr,
          find?_cons_of_neg (by simpa using hb)]

/-- The first element of a key is the last one that was put in. -/
theorem find?_merge (k : K) (base ov : List R) :
    (merge key base ov).find? (fun a => key a = some k) =
      (lastOf key k ov).or (base.find? fun a => key a = some k) := by
  induction ov generalizing base with
  | nil => rfl
  | cons r ov ih =>
    rw [merge_cons_right, ih, find?_upsert, lastOf, Option.or_assoc]
    split_ifs <;> rfl

theorem lastOf_upsert_of_ne {r : R} (h : key r ≠ some k) (l : List R) :
    lastOf key k (upsert key r l) = lastOf key k l := by
  induction l with
  | nil => simp [upsert, lastOf, h]
  | cons b bs ih =>
    rw [upsert]
    split_ifs with hsame
    · rw [lastOf, lastOf, if_neg h, if_neg (hsame.2 ▸ h)]
    · rw [lastOf, lastOf, ih]

theorem lastOf_merge_of_none {ov : List R} (h : lastOf key k ov = none) (base : List R) :
    lastOf key k (merge key base ov) = lastOf key k base := by
  induction ov generalizing base with
  | nil => rfl
  | cons r ov ih =>
    rw [lastOf, Option.or_eq_none_iff] at h
    have hr : key r ≠ some k := fun hr => by simp [hr] at h
    rw [merge_cons_right, ih h.1, lastOf_upsert_of_ne hr]

theorem without_upsert (k : Option K) (r : R) (l : List R) : without key k (upsert key r l) =
    if k.isSome ∧ key r = k then without key k l else upsert key r (without key k l) := by
  induction l with
  | nil =>
    rw [upsert, without_cons]
    rfl
  | cons b bs ih =>
    rw [upsert]
    by_cases hr : k.isSome ∧ key r = k
    · rw [if_pos hr] at ih ⊢
      split_ifs with hsame
      · rw [without_cons, without_cons, if_pos hr, if_pos ⟨hr.1, hsame.2.trans hr.2⟩]
      · rw [without_cons, without_cons, ih]
    · rw [if_neg hr] at ih ⊢
      split_ifs with hsame
      · have hb : ¬(k.isSome ∧ key b = k) := fun hb => hr ⟨hb.1, hsame.2.symm.trans hb.2⟩
        rw [without_cons, without_cons, if_neg hr, if_neg hb, upsert, if_pos hsame]
      · rw [without_cons, without_cons, ih]
        split_ifs
        · rfl
        · rw [upsert, if_neg hsame]

theorem without_merge (k : Option K) (base ov : List R) :
    without key k (merge key base ov) = merge key (without key k base) (without key k ov) := by
  induction ov generalizing base with
  | nil => rfl
  | cons r ov ih =>
    rw [merge_cons_right, ih, without_upsert, without_cons]
    split_ifs <;> rfl

/-- Where `base` repeats a key that `ov` has, both end with the same element of the key. -/
def RepeatsAgree (key : R → Option K) (base ov : List R) : Prop :=
  ∀ k, 1 < (keys key base).count k → ∀ r, lastOf key k ov = some r → lastOf key k base = some r

/-- A repeated key keeps its last element in a merge. -/
theorem lastOf_merge_of_repeat {base : List R} (h : 1 < (keys key base).count k)
    (ov : List R) : lastOf key k (merge key base ov) = lastOf key k base := by
  induction base generalizing ov with
  | nil => simp [keys] at h
  | cons b bs ih =>
    have hlatest : key (latest key ov b) = key b := key_latest ov b
    rw [merge_cons, lastOf, lastOf, hlatest]
    by_cases hb : key b = some k
    · rw [keys, filterMap_cons_some hb, count_cons_self] at h
      have hmem : k ∈ keys key bs := count_pos_iff.mp (Nat.lt_of_succ_lt_succ h)
      obtain ⟨r, hr⟩ := Option.ne_none_iff_exists'.mp fun hnone => lastOf_eq_none.mp hnone hmem
      rw [hb, lastOf_merge_of_none (lastOf_without_self k ov), hr, some_or, some_or]
    · have hcount : 1 < (keys key bs).count k := by
        cases hkey : key b with
        | none => rwa [keys, filterMap_cons_none hkey] at h
        | some k' =>
          have hne : k' ≠ k := fun heq => hb (heq ▸ hkey)
          rwa [keys, filterMap_cons_some hkey, count_cons_of_ne hne] at h
      rw [ih hcount, if_neg hb, if_neg hb]

theorem count_keys_without_le (key : R → Option K) (k : K) (k' : Option K) (l : List R) :
    (keys key (without key k' l)).count k ≤ (keys key l).count k :=
  (filter_sublist.filterMap key).count_le k

/-- Merged or in a row, the same elements are the last of their keys. -/
theorem onePerKey_append_eq (h : RepeatsAgree key base ov) :
    onePerKey key (base ++ ov) = onePerKey key (merge key base ov) := by
  induction base using withoutInduction key generalizing ov with
  | nil => rw [nil_append, merge_nil_left, onePerKey_onePerKey]
  | cons b bs ih =>
    have hlatest : key (latest key ov b) = key b := key_latest ov b
    rw [cons_append, onePerKey_cons, merge_cons, onePerKey_cons, hlatest]
    have hrest : RepeatsAgree key (without key (key b) bs) (without key (key b) ov) := by
      intro k hcount r hr
      have hle := count_keys_without_le key k (key b) bs
      by_cases hb : key b = some k
      · rw [hb, lastOf_without_self] at hr
        cases hr
      · rw [lastOf_without hb] at hr ⊢
        have hcons : (keys key bs).count k ≤ (keys key (b :: bs)).count k :=
          ((sublist_cons_self b bs).filterMap key).count_le k
        have hlast := h k (by omega) r hr
        rwa [lastOf, if_neg hb, or_none] at hlast
    rw [without_merge, without_idem]
    have hfilter : without key (key b) (bs ++ ov) =
        without key (key b) bs ++ without key (key b) ov := filter_append _ _
    rw [hfilter, ih hrest]
    refine congrArg (· :: _) ?_
    cases hb : key b with
    | none => rw [latest_of_none hb, latest_of_none hb, latest_of_none hb]
    | some k =>
      rw [latest_of_some hb, lastOf_append]
      have hb' := (key_latest ov b).trans hb
      rw [latest_of_some hb', lastOf_merge_of_none (lastOf_without_self k ov), latest_of_some hb]
      cases hlast : lastOf key k bs with
      | none => cases lastOf key k ov <;> rfl
      | some r =>
        have hmem : k ∈ keys key bs := by
          by_contra hnot
          rw [lastOf_eq_none.mpr hnot] at hlast
          cases hlast
        have hcount : 1 < (keys key (b :: bs)).count k := by
          rw [keys, filterMap_cons_some hb, count_cons_self]
          exact Nat.succ_lt_succ (count_pos_iff.mpr hmem)
        cases hov : lastOf key k ov with
        | none => rfl
        | some c =>
          have heq := h k hcount c hov
          rw [lastOf, hlast, some_or] at heq
          exact (Option.some.inj heq).symm

/-- Merging is associative exactly when the repeats of the middle list agree with the last. -/
theorem merge_assoc_iff {a b c : List R} :
    merge key (merge key a b) c = merge key a (merge key b c) ↔ RepeatsAgree key b c := by
  rw [← merge_append]
  constructor
  · intro h k hcount r hr
    have hfirst := congrArg (List.find? fun a => key a = some k) h
    rw [find?_merge, find?_merge, lastOf_append, hr, lastOf_merge_of_repeat hcount] at hfirst
    obtain ⟨r', hr'⟩ := Option.ne_none_iff_exists'.mp fun hnone => lastOf_eq_none.mp hnone
      (count_pos_iff.mp (Nat.lt_of_succ_lt hcount))
    rw [hr'] at hfirst ⊢
    exact hfirst.symm
  · intro h
    rw [← merge_onePerKey, onePerKey_append_eq h, merge_onePerKey]

end Upserts
