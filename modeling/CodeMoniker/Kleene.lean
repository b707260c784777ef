import Mathlib

/-!
# Three-valued answers

An answer of type `Option α` is open (`none`) or settled. `Extends x y` says that `y` keeps
what `x` has settled; it is preserved by the operations on options (`Extends.bind`,
`Extends.mapM`, `Extends.foldlM`).

`Kleene.fold d` is the strong Kleene connective of a list of truth values that `d` decides :
`fold false` is the conjunction and `fold true` the disjunction. Its flag stands for operands
that are not listed. `fold_eq` reads the answer off the list, `fold_extends` says that more
settled operands never change a settled answer, and `fold_perm` that their order does not
matter.
-/

namespace Kleene

open List

/-! ## Keeping what is settled -/

variable {α β : Type}

/-- What `x` settles, `y` settles in the same way. -/
def Extends (x y : Option α) : Prop := ∀ a, x = some a → y = some a

theorem Extends.refl (x : Option α) : Extends x x := fun _ h => h

theorem extends_none (y : Option α) : Extends none y := fun _ h => nomatch h

theorem Extends.bind {x y : Option α} {f g : α → Option β} (h : Extends x y)
    (hfg : ∀ a, x = some a → Extends (f a) (g a)) : Extends (x.bind f) (y.bind g) := by
  intro b hb
  obtain ⟨a, ha, hfa⟩ := Option.bind_eq_some_iff.mp hb
  rw [h a ha]
  exact hfg a ha b hfa

theorem Extends.map {x y : Option α} (h : Extends x y) (f : α → β) :
    Extends (x.map f) (y.map f) := by
  intro b hb
  obtain ⟨a, ha, rfl⟩ := Option.map_eq_some_iff.mp hb
  rw [h a ha]
  rfl

theorem Extends.mapM {f g : α → Option β} : ∀ {xs : List α}, (∀ x ∈ xs, Extends (f x) (g x)) →
    Extends (xs.mapM f) (xs.mapM g)
  | [], _ => by
    rw [mapM_nil]
    exact Extends.refl _
  | x :: xs, h => by
    rw [mapM_cons, mapM_cons]
    refine (h x (by simp)).bind fun b _ => ?_
    exact (Extends.mapM fun x' hx' => h x' (by simp [hx'])).bind fun bs _ => Extends.refl _

theorem Extends.foldlM {f g : β → α → Option β} (h : ∀ b a, Extends (f b a) (g b a)) :
    ∀ (xs : List α) (b : β), Extends (xs.foldlM f b) (xs.foldlM g b)
  | [], _ => Extends.refl _
  | x :: xs, b => by
    rw [foldlM_cons, foldlM_cons]
    exact (h b x).bind fun b' _ => Extends.foldlM h xs b'

/-! ## Connectives -/

/-- The connective that `d` decides, over the listed operands and, if `unlisted`, over others
of which nothing is known. -/
def fold (d : Bool) : (unlisted : Bool) → List (Option Bool) → Option Bool
  | unlisted, [] => if unlisted then none else some !d
  | unlisted, some b :: ts => if b = d then some d else fold d unlisted ts
  | _, none :: ts => fold d true ts

/-- A deciding operand decides; else an open one leaves the answer open. -/
theorem fold_eq (d : Bool) : ∀ (unlisted : Bool) (ts : List (Option Bool)),
    fold d unlisted ts = if some d ∈ ts then some d
      else if unlisted = true ∨ none ∈ ts then none else some !d
  | unlisted, [] => by simp [fold]
  | unlisted, none :: ts => by
    rw [fold, fold_eq d true ts]
    simp
  | unlisted, some b :: ts => by
    rw [fold, fold_eq d unlisted ts]
    by_cases hb : b = d
    · simp [hb]
    · have hne : ¬d = b := fun h => hb h.symm
      simp [hb, hne]

/-- An answer over some of the operands stands once more of them are settled or listed. If the
list is whole and settled it is the same list. -/
theorem fold_extends {d unlisted unlisted' : Bool} {ts ts' : List (Option Bool)}
    (hsub : ∀ b, some b ∈ ts → some b ∈ ts')
    (hwhole : unlisted = false → none ∉ ts → unlisted' = false ∧ ts' = ts) :
    Extends (fold d unlisted ts) (fold d unlisted' ts') := by
  intro b hb
  rw [fold_eq] at hb ⊢
  split_ifs at hb with hd hopen
  · rw [if_pos (hsub d hd)]
    exact hb
  · obtain ⟨hlisted, hnone⟩ := not_or.mp hopen
    obtain ⟨rfl, rfl⟩ := hwhole (by simpa using hlisted) hnone
    rw [if_neg hd]
    simpa [hnone] using hb

/-- Over operands given by terms : more terms, each with an answer that extends, as long as a
whole list stays as it is. -/
theorem fold_extends_map {d unlisted unlisted' : Bool} {f g : α → Option Bool} {xs ys : List α}
    (hsub : ∀ x ∈ xs, x ∈ ys) (hwhole : unlisted = false → unlisted' = false ∧ ys = xs)
    (h : ∀ x ∈ xs, Extends (f x) (g x)) :
    Extends (fold d unlisted (xs.map f)) (fold d unlisted' (ys.map g)) := by
  refine fold_extends (fun b hb => ?_) fun hlisted hnone => ?_
  · obtain ⟨x, hx, hfx⟩ := mem_map.mp hb
    exact mem_map.mpr ⟨x, hsub x hx, h x hx b hfx⟩
  · obtain ⟨hlisted', rfl⟩ := hwhole hlisted
    refine ⟨hlisted', map_congr_left fun x hx => ?_⟩
    obtain ⟨b, hb⟩ := Option.ne_none_iff_exists'.mp fun hno =>
      hnone (mem_map.mpr ⟨x, hx, hno⟩)
    rw [hb, h x hx b hb]

/-- Operands that extend one by one. -/
theorem fold_extends_forall₂ {d unlisted : Bool} {ts ts' : List (Option Bool)}
    (h : Forall₂ Extends ts ts') : Extends (fold d unlisted ts) (fold d unlisted ts') := by
  refine fold_extends ?_ fun hlisted hnone => ⟨hlisted, ?_⟩
  · intro b hb
    induction h with
    | nil => exact hb
    | cons ht _ ih =>
      rcases mem_cons.mp hb with rfl | hb
      · rw [ht b rfl]
        exact mem_cons_self
      · exact mem_cons_of_mem _ (ih hb)
  · induction h with
    | nil => rfl
    | @cons t t' ts ts' ht _ ih =>
      obtain ⟨hne, hrest⟩ := not_or.mp fun h => hnone (mem_cons.mpr h)
      obtain ⟨b, rfl⟩ := Option.ne_none_iff_exists'.mp fun h => hne h.symm
      rw [ht b rfl, ih hrest]

theorem fold_singleton (d : Bool) (x : Option Bool) : fold d false [x] = x := by
  rcases x with _ | b
  · rfl
  · by_cases hb : b = d
    · simp [fold, hb]
    · have hnot : (!d) = b := by
        cases b <;> cases d <;> simp_all
      simp [fold, hb, hnot]

/-- The first two operands may be joined beforehand. -/
theorem fold_cons_fold (d : Bool) (x y : Option Bool) (ts : List (Option Bool)) :
    fold d false (fold d false [x, y] :: ts) = fold d false (x :: y :: ts) := by
  cases x with
  | some b =>
    by_cases hb : b = d
    · simp [fold, hb]
    · have hrest : fold d false [some b, y] = y := by
        rw [fold, if_neg hb, fold_singleton]
      rw [hrest, fold, if_neg hb]
  | none =>
    cases y with
    | none => rfl
    | some c =>
      by_cases hc : c = d
      · simp [fold, hc]
      · simp [fold, hc]

/-- The order of the operands does not matter. -/
theorem fold_perm {d unlisted : Bool} {ts ts' : List (Option Bool)} (h : ts.Perm ts') :
    fold d unlisted ts = fold d unlisted ts' := by
  simp only [fold_eq, h.mem_iff]

end Kleene
