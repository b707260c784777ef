import Mathlib

/-!
# Stable sorting by a key

Elements with the same key keep their order (`filter_stableSort`), and a sorted list is
determined by its sublists of equal keys. Two lists therefore sort to the same list if and
only if they hold the same elements in the same order under every key (`stableSort_eq_iff`).
-/

namespace StableSort

open List

variable {α κ : Type} [LinearOrder κ]

def stableSort (key : α → κ) (l : List α) : List α :=
  l.insertionSort fun a b => key a ≤ key b

variable {key : α → κ} {l m : List α}

@[simp] theorem mem_stableSort {a : α} : a ∈ stableSort key l ↔ a ∈ l :=
  mem_insertionSort _

theorem sorted_stableSort : (stableSort key l).Pairwise (key · ≤ key ·) := by
  have : Std.Total fun a b : α => key a ≤ key b := ⟨fun a b => le_total (key a) (key b)⟩
  have : IsTrans α fun a b => key a ≤ key b := ⟨fun _ _ _ hab hbc => le_trans hab hbc⟩
  exact pairwise_insertionSort _ l

theorem filter_stableSort (k : κ) :
    (stableSort key l).filter (key · = k) = l.filter (key · = k) := by
  have : Std.Total fun a b : α => key a ≤ key b := ⟨fun a b => le_total (key a) (key b)⟩
  have : IsTrans α fun a b => key a ≤ key b := ⟨fun _ _ _ hab hbc => le_trans hab hbc⟩
  have hsorted : (l.filter (key · = k)).Pairwise fun a b => key a ≤ key b := by
    refine List.Pairwise.imp_of_mem (R := fun _ _ => True) ?_
      (pairwise_of_forall fun _ _ => trivial)
    intro a b ha hb _
    have hka : key a = k := by simpa using (mem_filter.mp ha).2
    have hkb : key b = k := by simpa using (mem_filter.mp hb).2
    rw [hka, hkb]
  have hsub := (sublist_insertionSort hsorted filter_sublist).filter (key · = k)
  rw [filter_filter] at hsub
  simp only [Bool.and_self] at hsub
  have hperm : (stableSort key l).Perm l := perm_insertionSort _ l
  exact (hsub.eq_of_length (hperm.filter (key · = k)).length_eq.symm).symm

/-- Two lists that are sorted by key and agree under every key are equal. -/
theorem eq_of_filter_eq : ∀ {l m : List α}, l.Pairwise (key · ≤ key ·) →
    m.Pairwise (key · ≤ key ·) → (∀ k, l.filter (key · = k) = m.filter (key · = k)) → l = m
  | [], [], _, _, _ => rfl
  | [], b :: m, _, _, h => by simpa using h (key b)
  | a :: l, [], _, _, h => by simpa using h (key a)
  | a :: l, b :: m, hl, hm, h => by
    obtain ⟨hal, hl'⟩ := pairwise_cons.mp hl
    obtain ⟨hbm, hm'⟩ := pairwise_cons.mp hm
    have mem_of_filter : ∀ {x : α} {s t : List α},
        s.filter (key · = key x) = t.filter (key · = key x) → x ∈ s → x ∈ t := by
      intro x s t hst hx
      have hmem : x ∈ s.filter (key · = key x) := mem_filter.mpr ⟨hx, by simp⟩
      rw [hst] at hmem
      exact (mem_filter.mp hmem).1
    -- Both heads have the least key, hence the same one.
    have hab : key a ≤ key b := by
      rcases mem_cons.mp (mem_of_filter (h (key b)).symm mem_cons_self) with rfl | hb
      · exact le_rfl
      · exact hal b hb
    have hba : key b ≤ key a := by
      rcases mem_cons.mp (mem_of_filter (h (key a)) mem_cons_self) with rfl | ha
      · exact le_rfl
      · exact hbm a ha
    have hkey : key b = key a := le_antisymm hba hab
    have hhead := h (key a)
    simp only [filter_cons, decide_true, if_true, hkey, cons.injEq] at hhead
    obtain ⟨rfl, -⟩ := hhead
    refine congrArg (a :: ·) (eq_of_filter_eq hl' hm' fun k => ?_)
    have hk := h k
    simp only [filter_cons] at hk
    split_ifs at hk with hak
    · exact (cons.inj hk).2
    · exact hk

theorem stableSort_eq_iff : stableSort key l = stableSort key m ↔
    ∀ k, l.filter (key · = k) = m.filter (key · = k) := by
  constructor
  · intro h k
    rw [← filter_stableSort k, h, filter_stableSort k]
  · intro h
    refine eq_of_filter_eq sorted_stableSort sorted_stableSort fun k => ?_
    rw [filter_stableSort k, h k, filter_stableSort k]

/-- Filtering by a condition commutes with selecting a key. -/
theorem filter_filter_stableSort (p : α → Bool) (k : κ) :
    ((stableSort key l).filter p).filter (key · = k) = (l.filter p).filter (key · = k) := by
  rw [filter_comm, filter_stableSort, filter_comm]

end StableSort
