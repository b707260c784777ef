import Mathlib

/-!
# Names from positions

An element without a name of its own is named by its position. When a list is filtered by the names
of its elements, what is left moves up, and an element that is named by its position gets another
name. `named_retain_iff` says when all that is left keeps its name, and then the same filter keeps
all of it (`retain_retain`).
-/

namespace PositionalNames

open List

variable {R K : Type} (nameOf : R → Option K) (ofPosition : ℕ → K)

/-- The name of the element at a position. -/
def nameAt (r : R) (i : ℕ) : K := (nameOf r).getD (ofPosition i)

/-- The elements with their names, counted from `n` on. -/
def namedFrom (n : ℕ) (l : List R) : List (K × R) :=
  (l.zipIdx n).map fun e => (nameAt nameOf ofPosition e.1 e.2, e.1)

def named (l : List R) : List (K × R) := namedFrom nameOf ofPosition 0 l

/-- The elements whose names `keep` selects. -/
def retainFrom (keep : K → Bool) (n : ℕ) (l : List R) : List R :=
  ((l.zipIdx n).filter fun e => keep (nameAt nameOf ofPosition e.1 e.2)).map Prod.fst

def retain (keep : K → Bool) (l : List R) : List R := retainFrom nameOf ofPosition keep 0 l

/-- No element that stays is named by its position and stands after one that goes. -/
def Steady (keep : K → Bool) (l : List R) : Prop :=
  l.zipIdx.Pairwise fun e e' => keep (nameAt nameOf ofPosition e'.1 e'.2) = true →
    nameOf e'.1 = none → keep (nameAt nameOf ofPosition e.1 e.2) = true

instance (keep : K → Bool) (l : List R) : Decidable (Steady nameOf ofPosition keep l) :=
  inferInstanceAs (Decidable (List.Pairwise _ _))

variable {nameOf ofPosition} {keep : K → Bool}

theorem namedFrom_cons (n : ℕ) (r : R) (l : List R) : namedFrom nameOf ofPosition n (r :: l) =
    (nameAt nameOf ofPosition r n, r) :: namedFrom nameOf ofPosition (n + 1) l := rfl

theorem retainFrom_cons (n : ℕ) (r : R) (l : List R) :
    retainFrom nameOf ofPosition keep n (r :: l) =
      if keep (nameAt nameOf ofPosition r n) then r :: retainFrom nameOf ofPosition keep (n + 1) l
      else retainFrom nameOf ofPosition keep (n + 1) l := by
  unfold retainFrom
  rw [zipIdx_cons, filter_cons]
  split_ifs <;> rfl

/-- What carries the names may be wrapped. -/
theorem retainFrom_map {S : Type} (f : S → R) (n : ℕ) (l : List S) :
    retainFrom nameOf ofPosition keep n (l.map f) =
      (retainFrom (nameOf ∘ f) ofPosition keep n l).map f := by
  induction l generalizing n with
  | nil => rfl
  | cons r l ih =>
    have hname : nameAt nameOf ofPosition (f r) n = nameAt (nameOf ∘ f) ofPosition r n := rfl
    rw [map_cons, retainFrom_cons, retainFrom_cons, ih, hname]
    split_ifs <;> rfl

theorem retain_map {S : Type} (f : S → R) (l : List S) :
    retain nameOf ofPosition keep (l.map f) = (retain (nameOf ∘ f) ofPosition keep l).map f :=
  retainFrom_map f 0 l

section

variable (h : Function.Injective ofPosition)

include h

/-- Only an element with a name of its own has one name at two positions. -/
theorem nameAt_eq_iff {r : R} {m n : ℕ} :
    nameAt nameOf ofPosition r m = nameAt nameOf ofPosition r n ↔ nameOf r = none → m = n := by
  unfold nameAt
  cases nameOf r with
  | none => simp [h.eq_iff]
  | some k => simp

/-- Once an element is gone, what stays must have names of its own. -/
theorem namedFrom_retainFrom_of_lt {m n : ℕ} (hlt : m < n)
    (l : List R) : namedFrom nameOf ofPosition m (retainFrom nameOf ofPosition keep n l) =
        (namedFrom nameOf ofPosition n l).filter (fun e => keep e.1) ↔
      ∀ e ∈ l.zipIdx n, keep (nameAt nameOf ofPosition e.1 e.2) = true → nameOf e.1 ≠ none := by
  induction l generalizing m n with
  | nil => simp [retainFrom, namedFrom]
  | cons r l ih =>
    rw [retainFrom_cons, namedFrom_cons, filter_cons, zipIdx_cons, forall_mem_cons]
    split_ifs with hkeep
    · rw [namedFrom_cons, cons.injEq, ih (by omega), Prod.mk.injEq, nameAt_eq_iff h]
      have hne : m ≠ n := Nat.ne_of_lt hlt
      simp [hkeep, hne]
    · rw [ih (by omega)]
      simp [hkeep]

theorem namedFrom_retainFrom (n : ℕ) (l : List R) :
    namedFrom nameOf ofPosition n (retainFrom nameOf ofPosition keep n l) =
        (namedFrom nameOf ofPosition n l).filter (fun e => keep e.1) ↔
      (l.zipIdx n).Pairwise fun e e' => keep (nameAt nameOf ofPosition e'.1 e'.2) = true →
        nameOf e'.1 = none → keep (nameAt nameOf ofPosition e.1 e.2) = true := by
  induction l generalizing n with
  | nil => simp [retainFrom, namedFrom]
  | cons r l ih =>
    rw [retainFrom_cons, namedFrom_cons, filter_cons, zipIdx_cons, pairwise_cons]
    split_ifs with hkeep
    · rw [namedFrom_cons, cons.injEq, ih]
      simp [hkeep]
    · rw [namedFrom_retainFrom_of_lt h (Nat.lt_succ_self n)]
      constructor
      · intro hown
        refine ⟨fun e he hk hnone => absurd hnone (hown e he hk), ?_⟩
        exact pairwise_of_forall_mem_list fun e _ e' he' hk hnone =>
          absurd hnone (hown e' he' hk)
      · intro hsteady e he hk hnone
        exact hkeep (hsteady.1 e he hk hnone)

/-- Everything that stays keeps its name exactly if no element that is named by its position moves
up. -/
theorem named_retain_iff {l : List R} : named nameOf ofPosition (retain nameOf ofPosition keep l) =
        (named nameOf ofPosition l).filter (fun e => keep e.1) ↔ Steady nameOf ofPosition keep l :=
  namedFrom_retainFrom h 0 l

end

theorem retainFrom_eq_self_iff {n : ℕ} {l : List R} : retainFrom nameOf ofPosition keep n l = l ↔
      ∀ e ∈ namedFrom nameOf ofPosition n l, keep e.1 = true := by
  induction l generalizing n with
  | nil => simp [retainFrom, namedFrom]
  | cons r l ih =>
    rw [retainFrom_cons, namedFrom_cons, forall_mem_cons]
    split_ifs with hkeep
    · rw [cons.injEq, ih]
      simp [hkeep]
    · refine iff_of_false (fun heq => ?_) fun hall => hkeep hall.1
      have hle : (retainFrom nameOf ofPosition keep (n + 1) l).length ≤ l.length := by
        unfold retainFrom
        rw [length_map]
        exact le_of_le_of_eq (length_filter_le _ _) length_zipIdx
      rw [heq, length_cons] at hle
      omega

/-- A second filter keeps what has kept its name. -/
theorem retain_retain (h : Function.Injective ofPosition) {l : List R}
    (hsteady : Steady nameOf ofPosition keep l) :
    retain nameOf ofPosition keep (retain nameOf ofPosition keep l) =
      retain nameOf ofPosition keep l := by
  refine retainFrom_eq_self_iff.mpr fun e he => ?_
  have hnamed := (named_retain_iff h).mpr hsteady
  rw [named] at hnamed
  rw [hnamed] at he
  exact (mem_filter.mp he).2

end PositionalNames
