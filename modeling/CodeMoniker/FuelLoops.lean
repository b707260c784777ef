import Mathlib

/-!
# Loops over a finite relation

A loop without a bound is run here on fuel (`Run`) : it is done, it has stopped the program,
or it is still running when the fuel is used up. A relation on finitely many elements is
well founded as soon as it has no cycle (`wellFounded_of_acyclic`). Then a chain of unique
successors ends (`Ends`), and a queue that keeps receiving the successors of what leaves it
runs empty (`queueLoop_done`).
-/

namespace FuelLoops

/-- How far a loop has come on some fuel. -/
inductive Run (α : Type) where
  | done (a : α)
  | panic
  | running
  deriving DecidableEq

section Relation

variable {α : Type}

/-- Nothing comes back to itself. -/
def Acyclic (r : α → α → Prop) : Prop := ∀ a, ¬Relation.TransGen r a a

variable {r : α → α → Prop}

theorem acyclic_of_lt [Preorder α] (hlt : ∀ a b, r a b → b < a) : Acyclic r := by
  have hdesc : ∀ a b, Relation.TransGen r a b → b < a := by
    intro a b hab
    induction hab with
    | single h => exact hlt _ _ h
    | tail _ h ih => exact (hlt _ _ h).trans ih
  exact fun a ha => lt_irrefl a (hdesc a a ha)

theorem Acyclic.swap (h : Acyclic r) : Acyclic (Function.swap r) := by
  intro a ha
  exact h a (Relation.transGen_swap.mp ha)

theorem wellFounded_of_acyclic {s : Set α} (hs : s.Finite)
    (hr : ∀ a b, r a b → a ∈ s ∧ b ∈ s) (h : Acyclic r) : WellFounded r := by
  have : IsStrictOrder α (Relation.TransGen r) :=
    { irrefl := h, trans := fun _ _ _ => Relation.TransGen.trans }
  have hwf := Set.wellFoundedOn_iff.mp (Set.Finite.wellFoundedOn (r := Relation.TransGen r) hs)
  refine Subrelation.wf ?_ hwf
  intro a b hab
  exact ⟨Relation.TransGen.single hab, hr a b hab⟩

end Relation

section Chain

variable {α : Type} {next : α → Option α}

/-- Following `next` comes to an element without a successor. -/
inductive Ends (next : α → Option α) : α → Prop
  | last {a : α} (h : next a = none) : Ends next a
  | step {a b : α} (h : next a = some b) (hb : Ends next b) : Ends next a

theorem Ends.not_transGen {a : α} (h : Ends next a) :
    ¬Relation.TransGen (fun a b => next a = some b) a a := by
  induction h with
  | last h =>
    intro hcycle
    obtain ⟨b, hb, -⟩ := Relation.TransGen.head'_iff.mp hcycle
    rw [h] at hb
    cases hb
  | @step a b h _ ih =>
    intro hcycle
    -- The cycle through `a` also goes through its successor.
    obtain ⟨b', hb', hrest⟩ := Relation.TransGen.head'_iff.mp hcycle
    obtain rfl : b = b' := Option.some.inj (h.symm.trans hb')
    exact ih (Relation.TransGen.tail' hrest h)

theorem ends_of_wellFounded (h : WellFounded fun b a => next a = some b) (a : α) : Ends next a := by
  induction a using h.induction with
  | _ a ih =>
    cases hnext : next a with
    | none => exact Ends.last hnext
    | some b => exact Ends.step hnext (ih b hnext)

end Chain

section Queue

variable {α : Type} (successors : α → List α)

/-- `while let Some(a) = todo.pop_front() { out.push(a); todo.extend(successors(a)) }`. -/
def queueLoop : ℕ → List α → List α → Run (List α)
  | 0, _, _ => .running
  | _ + 1, out, [] => .done out
  | fuel + 1, out, a :: todo => queueLoop fuel (out ++ [a]) (todo ++ successors a)

variable {successors}

/-- The rounds that an element of the queue costs. -/
noncomputable def cost (h : WellFounded fun b a => b ∈ successors a) : α → ℕ :=
  h.fix fun a rec => ((successors a).attach.map fun b => rec b.1 b.2).sum + 1

theorem cost_eq (h : WellFounded fun b a => b ∈ successors a) (a : α) :
    cost h a = ((successors a).map (cost h)).sum + 1 := by
  rw [cost, h.fix_eq, ← cost]
  congr 2
  exact List.attach_map_val

theorem queueLoop_done (h : WellFounded fun b a => b ∈ successors a) (out todo : List α) :
    ∃ fuel result, queueLoop successors fuel out todo = .done result := by
  -- The cost of the queue goes down by one in each round.
  induction hn : (todo.map (cost h)).sum generalizing out todo with
  | zero =>
    cases todo with
    | nil => exact ⟨1, out, rfl⟩
    | cons a todo =>
      rw [List.map_cons, List.sum_cons, cost_eq] at hn
      omega
  | succ n ih =>
    cases todo with
    | nil => exact ⟨1, out, rfl⟩
    | cons a todo =>
      rw [List.map_cons, List.sum_cons, cost_eq] at hn
      have hrest : ((todo ++ successors a).map (cost h)).sum = n := by
        rw [List.map_append, List.sum_append]
        omega
      obtain ⟨fuel, result, hresult⟩ := ih (out ++ [a]) (todo ++ successors a) hrest
      exact ⟨fuel + 1, result, hresult⟩

end Queue

end FuelLoops
