import Mathlib

/-!
# Lists that are traversed

A traversal with an option-valued function succeeds on every element or fails. `Forall₂` relates
the list to its results (`forall₂_of_mapM`), and every element has a result and every result an
element (`exists_of_forall₂`, `exists_left_of_forall₂`).
-/

namespace Traversals

open List Option

theorem mapM_filterMap {α β γ : Type} {f : α → Option β} {g : β → Option γ} {R : α → γ → Prop} :
    ∀ {l : List α}, (∀ x ∈ l, ∃ y z, f x = some y ∧ g y = some z ∧ R x z) →
      ∃ zs, (l.filterMap f).mapM g = some zs ∧ Forall₂ R l zs
  | [], _ => ⟨[], rfl, .nil⟩
  | x :: l, h => by
    obtain ⟨y, z, hy, hz, hR⟩ := h x mem_cons_self
    obtain ⟨zs, hzs, hall⟩ := mapM_filterMap fun x' hx' => h x' (mem_cons_of_mem x hx')
    refine ⟨z :: zs, ?_, .cons hR hall⟩
    rw [filterMap_cons_some hy, mapM_cons, hz, hzs]
    rfl

variable {α β : Type}

theorem mapM_append_some {g : α → Option β} {l l' : List α} {m m' : List β}
    (h : l.mapM g = some m) (h' : l'.mapM g = some m') : (l ++ l').mapM g = some (m ++ m') := by
  rw [mapM_append, h, h']
  rfl

variable {R : α → β → Prop}

theorem eq_map_of_forall₂ {f : α → β} : ∀ {l : List α} {m : List β},
    Forall₂ R l m → (∀ a ∈ l, ∀ b, R a b → b = f a) → m = l.map f
  | _, _, .nil, _ => rfl
  | a :: l, _, .cons h hall, hf => by
    rw [map_cons, hf a mem_cons_self _ h,
      eq_map_of_forall₂ hall fun a' ha' => hf a' (mem_cons_of_mem a ha')]

/-- Each element on the left has a partner. -/
theorem exists_of_forall₂ : ∀ {l : List α} {m : List β},
    Forall₂ R l m → ∀ {a}, a ∈ l → ∃ b ∈ m, R a b
  | _, _, .cons h hall, a, ha => by
    rcases mem_cons.mp ha with rfl | ha
    · exact ⟨_, mem_cons_self, h⟩
    · obtain ⟨b, hb, hR⟩ := exists_of_forall₂ hall ha
      exact ⟨b, mem_cons_of_mem _ hb, hR⟩

theorem exists_left_of_forall₂ {l : List α} {m : List β}
    (h : Forall₂ R l m) {b : β} (hb : b ∈ m) : ∃ a ∈ l, R a b :=
  exists_of_forall₂ (R := flip R) h.flip hb

/-- A traversal that succeeds relates each element to its result. -/
theorem forall₂_of_mapM {g : α → Option β} : ∀ {l : List α} {m : List β},
    l.mapM g = some m → Forall₂ (fun a b => g a = some b) l m
  | [], m, h => by
    obtain rfl := some.inj h
    exact .nil
  | a :: l, m, h => by
    rw [mapM_cons, bind_eq_bind, bind_eq_some_iff] at h
    obtain ⟨b, hb, h⟩ := h
    rw [bind_eq_bind, bind_eq_some_iff] at h
    obtain ⟨m', hm', h⟩ := h
    obtain rfl := some.inj h
    exact .cons hb (forall₂_of_mapM hm')

theorem mem_of_mapM {g : α → Option β} {l : List α} {m : List β}
    (h : l.mapM g = some m) {b : β} (hb : b ∈ m) : ∃ a ∈ l, g a = some b :=
  exists_left_of_forall₂ (forall₂_of_mapM h) hb

/-! ## Slots -/

/-- Emptying a slot takes its value out of the list of values. -/
theorem perm_filterMap_id_set {α : Type} : ∀ {slots : List (Option α)} {i : ℕ} {a : α},
    slots[i]?.join = some a → (slots.filterMap id).Perm (a :: (slots.set i none).filterMap id)
  | none :: slots, 0, a, h => by simp at h
  | some b :: slots, 0, a, h => by
    obtain rfl : b = a := by simpa using h
    rfl
  | none :: slots, i + 1, a, h => by
    have hrest : slots[i]?.join = some a := by simpa using h
    have ih := perm_filterMap_id_set hrest
    exact ih
  | some b :: slots, i + 1, a, h => by
    have hrest : slots[i]?.join = some a := by simpa using h
    have ih := perm_filterMap_id_set hrest
    exact (ih.cons b).trans (.swap a b _)

end Traversals
