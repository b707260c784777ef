import Mathlib

/-!
# Finite sets with an ordered iteration

A finite set held as the strictly increasing list of its members, as a compressed bitmap
iterates it. Two sets with the same members are equal (`OrdSet.ext`), so statements
about the operations are statements about membership, which the simp set reduces to
logic.
-/

/-- A strictly increasing list. -/
structure OrdSet (α : Type) [LinearOrder α] where
  elems : List α
  sorted : elems.Pairwise (· < ·)
  deriving DecidableEq

namespace OrdSet

open List

variable {α β : Type} [LinearOrder α] [LinearOrder β]

instance : Membership α (OrdSet α) := ⟨fun s a => a ∈ s.elems⟩

instance (a : α) (s : OrdSet α) : Decidable (a ∈ s) := inferInstanceAs (Decidable (a ∈ s.elems))

instance : EmptyCollection (OrdSet α) := ⟨⟨[], List.Pairwise.nil⟩⟩

variable {a : α}

theorem mem_def {s : OrdSet α} : a ∈ s ↔ a ∈ s.elems := Iff.rfl

@[simp] theorem mem_mk {l : List α} {h : l.Pairwise (· < ·)} :
    a ∈ (⟨l, h⟩ : OrdSet α) ↔ a ∈ l := Iff.rfl

@[simp] theorem mem_elems {s : OrdSet α} : a ∈ s.elems ↔ a ∈ s := Iff.rfl

@[simp] theorem notMem_empty (a : α) : a ∉ (∅ : OrdSet α) := not_mem_nil

theorem nodup (s : OrdSet α) : s.elems.Nodup := s.sorted.imp fun h => h.ne

/-- Two increasing lists with the same members are the same list. -/
theorem elems_eq_of_mem_iff {l m : List α} (hl : l.Pairwise (· < ·)) (hm : m.Pairwise (· < ·))
    (h : ∀ a, a ∈ l ↔ a ∈ m) : l = m := by
  have hperm : l.Perm m :=
    (perm_ext_iff_of_nodup (hl.imp fun h => h.ne) (hm.imp fun h => h.ne)).mpr h
  exact hperm.eq_of_pairwise (fun a b _ _ hab hba => absurd hba (not_lt_of_gt hab)) hl hm

variable {s t : OrdSet α}

@[ext] theorem ext (h : ∀ a, a ∈ s ↔ a ∈ t) : s = t := by
  obtain ⟨l, hl⟩ := s
  obtain ⟨m, hm⟩ := t
  obtain rfl : l = m := elems_eq_of_mem_iff hl hm h
  rfl

/-! ## Operations -/

def insertList (a : α) : List α → List α
  | [] => [a]
  | b :: bs => if a < b then a :: b :: bs else if b < a then b :: insertList a bs else b :: bs

theorem mem_insertList {a x : α} : ∀ {l : List α}, x ∈ insertList a l ↔ x = a ∨ x ∈ l
  | [] => by simp [insertList]
  | b :: bs => by
    unfold insertList
    split_ifs with h1 h2
    · simp
    · simp only [List.mem_cons, mem_insertList]
      tauto
    · obtain rfl : a = b := le_antisymm (not_lt.mp h2) (not_lt.mp h1)
      simp

theorem sorted_insertList : ∀ {l : List α}, l.Pairwise (· < ·) → (insertList a l).Pairwise (· < ·)
  | [], _ => by simp [insertList]
  | b :: bs, h => by
    unfold insertList
    have hb := pairwise_cons.mp h
    split_ifs with h1 h2
    · refine pairwise_cons.mpr ⟨fun x hx => ?_, h⟩
      rcases List.mem_cons.mp hx with rfl | hx
      · exact h1
      · exact h1.trans (hb.1 x hx)
    · refine pairwise_cons.mpr ⟨fun x hx => ?_, sorted_insertList hb.2⟩
      rcases mem_insertList.mp hx with rfl | hx
      · exact h2
      · exact hb.1 x hx
    · exact h

def insert (a : α) (s : OrdSet α) : OrdSet α := ⟨insertList a s.elems, sorted_insertList s.sorted⟩

@[simp] theorem mem_insert {a x : α} {s : OrdSet α} : x ∈ s.insert a ↔ x = a ∨ x ∈ s :=
  mem_insertList

/-- The set of the members of a list. -/
def ofList (l : List α) : OrdSet α := l.foldr insert ∅

@[simp] theorem mem_ofList {x : α} : ∀ {l : List α}, x ∈ ofList l ↔ x ∈ l
  | [] => by simp [ofList]
  | a :: l => by
    have ih := @mem_ofList x l
    simp only [ofList, foldr_cons, mem_insert, List.mem_cons] at ih ⊢
    rw [ih]

def filter (p : α → Prop) [DecidablePred p] (s : OrdSet α) : OrdSet α :=
  ⟨s.elems.filter (p ·), s.sorted.filter _⟩

@[simp] theorem mem_filter {p : α → Prop} [DecidablePred p] {a : α} {s : OrdSet α} :
    a ∈ s.filter p ↔ a ∈ s ∧ p a := by
  simp [filter]

instance : Union (OrdSet α) := ⟨fun s t => s.elems.foldr insert t⟩

instance : Inter (OrdSet α) := ⟨fun s t => s.filter (· ∈ t)⟩

instance : SDiff (OrdSet α) := ⟨fun s t => s.filter (· ∉ t)⟩

@[simp] theorem mem_union {s t : OrdSet α} : a ∈ s ∪ t ↔ a ∈ s ∨ a ∈ t := by
  have h : ∀ l : List α, a ∈ l.foldr insert t ↔ a ∈ l ∨ a ∈ t := by
    intro l
    induction l with
    | nil => simp
    | cons b l ih => simp only [foldr_cons, mem_insert, ih, List.mem_cons, or_assoc]
  exact h s.elems

/-- A fold that unites sets collects their elements. -/
theorem mem_foldl_union {β : Type} (f : β → OrdSet α) {a : α} : ∀ {l : List β} {s : OrdSet α},
    a ∈ l.foldl (fun s b => s ∪ f b) s ↔ a ∈ s ∨ ∃ b ∈ l, a ∈ f b
  | [], s => by simp
  | b :: l, s => by
    rw [foldl_cons, mem_foldl_union f, mem_union, or_assoc, exists_mem_cons_iff]

/-- A fold that inserts the elements with a property into one of the sets of its state. -/
theorem mem_foldl_insert_if {σ : Type} {f : σ → α → σ} {g : σ → OrdSet α} {p : α → Prop}
    [DecidablePred p] (hstep : ∀ s a, g (f s a) = if p a then (g s).insert a else g s) {a : α} :
    ∀ {l : List α} {s : σ}, a ∈ g (l.foldl f s) ↔ a ∈ g s ∨ a ∈ l ∧ p a
  | [], s => by simp
  | b :: l, s => by
    rw [foldl_cons, mem_foldl_insert_if hstep, hstep, List.mem_cons]
    by_cases hb : p b
    · rw [if_pos hb, mem_insert]
      by_cases hab : a = b
      · simp [hab, hb]
      · simp [hab]
    · rw [if_neg hb]
      by_cases hab : a = b
      · simp [hab, hb]
      · simp [hab]

@[simp] theorem mem_inter {s t : OrdSet α} : a ∈ s ∩ t ↔ a ∈ s ∧ a ∈ t := mem_filter

@[simp] theorem mem_sdiff {s t : OrdSet α} : a ∈ s \ t ↔ a ∈ s ∧ a ∉ t := mem_filter

/-- The `n` least members. -/
def take (n : ℕ) (s : OrdSet α) : OrdSet α :=
  ⟨s.elems.take n, s.sorted.sublist (List.take_sublist n _)⟩

theorem mem_of_mem_take {n : ℕ} {a : α} {s : OrdSet α} (h : a ∈ s.take n) : a ∈ s :=
  List.mem_of_mem_take h

def card (s : OrdSet α) : ℕ := s.elems.length

theorem card_le_of_subset (h : ∀ a ∈ s, a ∈ t) : s.card ≤ t.card :=
  s.nodup.length_le_of_subset fun a ha => h a ha

theorem card_take_le (n : ℕ) (s : OrdSet α) : (s.take n).card ≤ n := length_take_le n s.elems

theorem card_insert_le (a : α) (s : OrdSet α) : (s.insert a).card ≤ s.card + 1 := by
  have hsub : (s.insert a).elems ⊆ a :: s.elems := fun x hx => by
    rw [List.mem_cons]
    exact mem_insert.mp hx
  exact (s.insert a).nodup.length_le_of_subset hsub

theorem card_union (h : ∀ a ∈ s, a ∉ t) : (s ∪ t).card = s.card + t.card := by
  have hnodup : (s.elems ++ t.elems).Nodup :=
    nodup_append.mpr ⟨s.nodup, t.nodup, fun a ha b hb hab => h a ha (hab ▸ hb)⟩
  have hperm : (s ∪ t).elems.Perm (s.elems ++ t.elems) := by
    refine (perm_ext_iff_of_nodup (s ∪ t).nodup hnodup).mpr fun a => ?_
    rw [mem_append]
    exact mem_union
  rw [card, hperm.length_eq, length_append]
  rfl

theorem filter_union {p : α → Prop} [DecidablePred p] (s t : OrdSet α) :
    (s ∪ t).filter p = s.filter p ∪ t.filter p := by
  ext a
  simp [or_and_right]

theorem eq_of_subset_of_card_le (h : ∀ a ∈ s, a ∈ t) (hcard : t.card ≤ s.card) : s = t := by
  have hsubperm := List.Nodup.subperm s.nodup fun a ha => h a ha
  have hperm := hsubperm.perm_of_length_le hcard
  ext a
  exact hperm.mem_iff

variable {s : OrdSet α}

theorem eq_empty_iff : s = ∅ ↔ ∀ a, a ∉ s := by
  refine ⟨?_, fun h => ?_⟩
  · rintro rfl
    simp
  · ext a
    simp [h a]

theorem ne_empty_iff : s ≠ ∅ ↔ ∃ a, a ∈ s := by
  rw [ne_eq, eq_empty_iff]
  push Not
  rfl

/-- A search along the members finds the least one that passes. -/
theorem find?_elems_eq_some {p : α → Bool} {a : α} :
    s.elems.find? p = some a ↔ a ∈ s ∧ p a = true ∧ ∀ b ∈ s, p b = true → a ≤ b := by
  have hfind : ∀ {l : List α}, l.Pairwise (· < ·) →
      (l.find? p = some a ↔ a ∈ l ∧ p a = true ∧ ∀ b ∈ l, p b = true → a ≤ b) := by
    intro l hl
    induction l with
    | nil => simp
    | cons c l ih =>
      obtain ⟨hc, hl⟩ := pairwise_cons.mp hl
      by_cases hpc : p c = true
      · rw [find?_cons_of_pos hpc, Option.some.injEq]
        constructor
        · rintro rfl
          refine ⟨mem_cons_self, hpc, fun b hb _ => ?_⟩
          rcases List.mem_cons.mp hb with rfl | hb
          · exact le_rfl
          · exact (hc b hb).le
        · rintro ⟨ha, -, hleast⟩
          rcases List.mem_cons.mp ha with rfl | ha
          · rfl
          · exact absurd (hleast c mem_cons_self hpc) (not_le_of_gt (hc a ha))
      · rw [find?_cons_of_neg hpc, ih hl, List.mem_cons, forall_mem_cons]
        constructor
        · rintro ⟨ha, hpa, hleast⟩
          exact ⟨Or.inr ha, hpa, fun hpc' => absurd hpc' hpc, hleast⟩
        · rintro ⟨rfl | ha, hpa, -, hleast⟩
          · exact absurd hpa hpc
          · exact ⟨ha, hpa, hleast⟩
  exact hfind s.sorted

end OrdSet
