import Mathlib

/-!
# Distances in a directed graph

Vertices that a relation `E` reaches from a set `S` in exactly `n` steps (`Reach`), in at
most `n` steps (`Ball`) and in no fewer than `n` steps (`Dist`). A breadth-first search
computes one layer from the one before : the vertices at distance `n + 1` are the
successors of those at distance `n` outside the ball of radius `n` (`dist_succ_iff`). Once a
layer is empty the ball stops growing (`mem_ball_of_no_dist`).
-/

namespace Walks

variable {α : Type} (E : α → α → Prop) (S : Set α)

/-- `v` ends a walk of `n` steps that starts in `S`. -/
def Reach : ℕ → α → Prop
  | 0, v => v ∈ S
  | n + 1, v => ∃ u, Reach n u ∧ E u v

def Ball (n : ℕ) : Set α := {v | ∃ m ≤ n, Reach E S m v}

/-- `v` is reached in `n` steps and in no fewer. -/
def Dist (n : ℕ) (v : α) : Prop := Reach E S n v ∧ ∀ m < n, ¬Reach E S m v

variable {E S}

@[simp] theorem reach_zero {v : α} : Reach E S 0 v ↔ v ∈ S := Iff.rfl

@[simp] theorem mem_ball_zero {v : α} : v ∈ Ball E S 0 ↔ v ∈ S := by
  simp [Ball]

@[simp] theorem dist_zero {v : α} : Dist E S 0 v ↔ v ∈ S := by
  simp [Dist]

theorem Reach.mem_ball {n m : ℕ} {v : α} (h : Reach E S m v) (hm : m ≤ n) : v ∈ Ball E S n :=
  ⟨m, hm, h⟩

theorem ball_mono {n m : ℕ} (h : n ≤ m) : Ball E S n ⊆ Ball E S m :=
  fun _ ⟨k, hk, hv⟩ => ⟨k, hk.trans h, hv⟩

theorem Dist.mem_ball {n : ℕ} {v : α} (h : Dist E S n v) : v ∈ Ball E S n := h.1.mem_ball le_rfl

/-- A vertex in the ball has a distance. -/
theorem exists_dist_of_mem_ball {n : ℕ} {v : α} (h : v ∈ Ball E S n) : ∃ m ≤ n, Dist E S m v := by
  classical
  have hex : ∃ m, Reach E S m v := let ⟨m, _, hm⟩ := h; ⟨m, hm⟩
  obtain ⟨m, hmn, hm⟩ := h
  exact ⟨Nat.find hex, (Nat.find_le hm).trans hmn, Nat.find_spec hex, fun k hk => Nat.find_min hex hk⟩

/-- One layer from the one before. -/
theorem dist_succ_iff {n : ℕ} {v : α} :
    Dist E S (n + 1) v ↔ v ∉ Ball E S n ∧ ∃ u, Dist E S n u ∧ E u v := by
  refine ⟨?_, ?_⟩
  · rintro ⟨⟨u, hu, huv⟩, hmin⟩
    have hout : v ∉ Ball E S n := fun ⟨m, hm, hv⟩ => hmin m (by omega) hv
    refine ⟨hout, u, ⟨hu, fun m hm hum => ?_⟩, huv⟩
    exact hmin (m + 1) (by omega) ⟨u, hum, huv⟩
  · rintro ⟨hout, u, hu, huv⟩
    exact ⟨⟨u, hu.1, huv⟩, fun m hm hv => hout ⟨m, by omega, hv⟩⟩

theorem mem_ball_succ_iff {n : ℕ} {v : α} :
    v ∈ Ball E S (n + 1) ↔ v ∈ Ball E S n ∨ Dist E S (n + 1) v := by
  refine ⟨fun h => ?_, ?_⟩
  · obtain ⟨m, hm, hv⟩ := exists_dist_of_mem_ball h
    rcases Nat.lt_or_ge m (n + 1) with hlt | hge
    · exact Or.inl (hv.1.mem_ball (by omega))
    · obtain rfl : m = n + 1 := by omega
      exact Or.inr hv
  · rintro (h | h)
    · exact ball_mono (Nat.le_succ n) h
    · exact h.mem_ball

/-- An empty layer is the last one. -/
theorem mem_ball_of_no_dist {n : ℕ} (h : ∀ v, ¬Dist E S (n + 1) v) :
    ∀ {m : ℕ} {v : α}, Reach E S m v → v ∈ Ball E S n
  | 0, _, hv => ball_mono (Nat.zero_le n) (mem_ball_zero.mpr hv)
  | m + 1, v, ⟨u, hu, huv⟩ => by
    obtain ⟨k, hk, hku⟩ := exists_dist_of_mem_ball (mem_ball_of_no_dist h hu)
    by_cases hout : v ∈ Ball E S n
    · exact hout
    · rcases Nat.lt_or_ge k n with hlt | hge
      · have hv : Reach E S (k + 1) v := ⟨u, hku.1, huv⟩
        exact hv.mem_ball hlt
      · obtain rfl : k = n := by omega
        exact absurd (dist_succ_iff.mpr ⟨hout, u, hku, huv⟩) (h v)

end Walks
