import Mathlib

/-!
# Groups in a sorted list

A list that is strictly sorted by a key holds each group in one piece if and only if no
element of another group has its key between two of them (`contiguous_iff`). A segment whose
two ends lie between groups then holds the whole group of each of its elements
(`Contiguous.mem_segment`).
-/

namespace Grouping

open List

variable {α β κ : Type}

/-- The elements of a group stand next to each other. -/
def Contiguous (group : α → β) (rows : List α) : Prop :=
  ∀ {i j k : ℕ} {x y z : α}, i ≤ j → j ≤ k → rows[i]? = some x → rows[j]? = some y →
    rows[k]? = some z → group x = group z → group y = group x

/-- No group goes on at the position. -/
def Boundary (group : α → β) (rows : List α) (e : ℕ) : Prop :=
  ∀ {i : ℕ} {x y : α}, i + 1 = e → rows[i]? = some x → rows[e]? = some y → group x ≠ group y

variable {group : α → β} {rows : List α}

section Sorted

variable [LinearOrder κ] {key : α → κ} (hsorted : rows.Pairwise (key · < key ·))

include hsorted

theorem lt_of_index_lt {i j : ℕ} {x y : α} (hij : i < j)
    (hx : rows[i]? = some x) (hy : rows[j]? = some y) : key x < key y := by
  obtain ⟨hi, rfl⟩ := List.getElem?_eq_some_iff.mp hx
  obtain ⟨hj, rfl⟩ := List.getElem?_eq_some_iff.mp hy
  exact pairwise_iff_getElem.mp hsorted i j hi hj hij

theorem index_le_of_lt {i j : ℕ} {x y : α}
    (hx : rows[i]? = some x) (hy : rows[j]? = some y) (h : key x < key y) : i ≤ j := by
  by_contra hji
  exact lt_asymm h (lt_of_index_lt hsorted (Nat.lt_of_not_le hji) hy hx)

theorem contiguous_iff :
    Contiguous group rows ↔ ∀ x ∈ rows, ∀ y ∈ rows, ∀ z ∈ rows, key x < key y → key y < key z →
      group x = group z → group y = group x := by
  constructor
  · intro h x hx y hy z hz hxy hyz
    obtain ⟨i, hi⟩ := mem_iff_getElem?.mp hx
    obtain ⟨j, hj⟩ := mem_iff_getElem?.mp hy
    obtain ⟨k, hk⟩ := mem_iff_getElem?.mp hz
    exact h (index_le_of_lt hsorted hi hj hxy) (index_le_of_lt hsorted hj hk hyz) hi hj hk
  · intro h i j k x y z hij hjk hi hj hk hxz
    rcases Nat.eq_or_lt_of_le hij with rfl | hij
    · rw [Option.some.inj (hj.symm.trans hi)]
    rcases Nat.eq_or_lt_of_le hjk with rfl | hjk
    · rw [hxz, Option.some.inj (hj.symm.trans hk)]
    exact h x (mem_of_getElem? hi) y (mem_of_getElem? hj) z (mem_of_getElem? hk)
      (lt_of_index_lt hsorted hij hi hj) (lt_of_index_lt hsorted hjk hj hk) hxz

omit hsorted

/-- Between two pairs with one first component. -/
theorem lex_between [LinearOrder α] {a b : α} {r s t : κ} (h : toLex (a, r) < toLex (b, s))
    (h' : toLex (b, s) < toLex (a, t)) : b = a ∧ r < s ∧ s < t := by
  rw [Prod.Lex.toLex_lt_toLex] at h h'
  rcases h with hab | ⟨hab, hrs⟩
  · rcases h' with hba | ⟨hba, -⟩
    · exact absurd hab (lt_asymm hba)
    · exact absurd hba (ne_of_gt hab)
  · rcases h' with hba | ⟨-, hst⟩
    · exact absurd hab (ne_of_gt hba)
    · exact ⟨hab.symm, hrs, hst⟩

theorem lex_lt_iff [LinearOrder α] {a : α} {r s : κ} : toLex (a, r) < toLex (a, s) ↔ r < s := by
  simp [Prod.Lex.toLex_lt_toLex]

end Sorted

/-! ## Segments -/

/-- A group that has an element before a position and one from it on goes on there. -/
theorem Contiguous.not_boundary (h : Contiguous group rows) {e i j : ℕ} {x y : α} (hie : i < e)
    (hej : e ≤ j) (hx : rows[i]? = some x) (hy : rows[j]? = some y) (hxy : group x = group y) :
    ¬Boundary group rows e := by
  intro hboundary
  have hj : j < rows.length := (List.getElem?_eq_some_iff.mp hy).1
  have hlast : rows[e - 1]? = some rows[e - 1] := getElem?_eq_getElem _
  have hnext : rows[e]? = some rows[e] := getElem?_eq_getElem _
  have hlast' := h (by omega) (by omega) hx hlast hy hxy
  have hnext' := h (by omega) hej hx hnext hy hxy
  exact hboundary (by omega) hlast hnext (hlast'.trans hnext'.symm)

theorem mem_segment_iff {s e : ℕ} {x : α} :
    x ∈ (rows.drop s).take (e - s) ↔ ∃ i, s ≤ i ∧ i < e ∧ rows[i]? = some x := by
  rw [mem_iff_getElem?]
  constructor
  · rintro ⟨i, hi⟩
    rw [getElem?_take] at hi
    split_ifs at hi with hlt
    rw [getElem?_drop] at hi
    exact ⟨s + i, by omega, by omega, hi⟩
  · rintro ⟨i, hsi, hie, hi⟩
    refine ⟨i - s, ?_⟩
    rw [getElem?_take_of_lt (by omega), getElem?_drop, Nat.add_sub_cancel' hsi]
    exact hi

theorem Contiguous.mem_segment (h : Contiguous group rows) {s e : ℕ} (hs : Boundary group rows s)
    (he : Boundary group rows e) {x y : α} (hx : x ∈ (rows.drop s).take (e - s)) (hy : y ∈ rows)
    (hxy : group x = group y) : y ∈ (rows.drop s).take (e - s) := by
  obtain ⟨i, hsi, hie, hi⟩ := mem_segment_iff.mp hx
  obtain ⟨j, hj⟩ := mem_iff_getElem?.mp hy
  refine mem_segment_iff.mpr ⟨j, ?_, ?_, hj⟩
  · by_contra hjs
    exact h.not_boundary (Nat.lt_of_not_le hjs) hsi hj hi hxy.symm hs
  · by_contra hje
    exact h.not_boundary hie (Nat.le_of_not_lt hje) hi hj hxy he

end Grouping
