import CodeMoniker.FuelLoops

/-!
# Stacks with a set of what was seen

`seenLoop` takes items off a stack, skips those whose key it has seen, and puts the successors of
the others on the stack. It ends as soon as the items lie in a finite set that contains all
successors (`seenLoop_done`), and when it has ended the keys it has seen are closed under successors
(`seenLoop_closed`).

The finite sets are orbits of a relation. An orbit stays finite when jumps to finitely many elements
are added (`finite_orbit_jump`), and when steps are added that lower a rank (`finite_orbit_drop`).
-/

namespace FuelLoops

/-! ## Orbits -/

section Orbit

variable {α : Type}

/-- What `r` leads to from `a`. -/
def orbit (r : α → α → Prop) (a : α) : Set α := {b | Relation.ReflTransGen r a b}

theorem mem_orbit_self (r : α → α → Prop) (a : α) : a ∈ orbit r a := Relation.ReflTransGen.refl

theorem orbit_next {r : α → α → Prop} {a b c : α} (hb : b ∈ orbit r a) (h : r b c) :
    c ∈ orbit r a :=
  Relation.ReflTransGen.tail hb h

theorem finite_orbit_jump {r : α → α → Prop} {s : Set α} (hr : ∀ a, (orbit r a).Finite)
    (hs : s.Finite) (a : α) : (orbit (fun a b => r a b ∨ b ∈ s) a).Finite := by
  have hfinite : (orbit r a ∪ ⋃ b ∈ s, orbit r b).Finite :=
    (hr a).union (hs.biUnion fun b _ => hr b)
  refine hfinite.subset fun c hc => ?_
  induction hc with
  | refl => exact Or.inl (mem_orbit_self r a)
  | @tail b c _ hbc ih =>
    rcases hbc with hbc | hc
    · rcases ih with hb | hb
      · exact Or.inl (orbit_next hb hbc)
      · obtain ⟨start, hstart, hb⟩ := Set.mem_iUnion₂.mp hb
        exact Or.inr (Set.mem_iUnion₂.mpr ⟨start, hstart, orbit_next hb hbc⟩)
    · exact Or.inr (Set.mem_iUnion₂.mpr ⟨c, hc, mem_orbit_self r c⟩)

theorem finite_orbit_drop {stay drop : α → α → Prop} {rank : α → ℕ}
    (hstay : ∀ a, (orbit stay a).Finite) (hrank : ∀ a b, stay a b → rank b ≤ rank a)
    (hdrop : ∀ a b, drop a b → rank b < rank a) (hbranch : ∀ a, {b | drop a b}.Finite) (a : α) :
    (orbit (fun a b => stay a b ∨ drop a b) a).Finite := by
  induction hn : rank a using Nat.strong_induction_on generalizing a with
  | _ n ih =>
    have hle : ∀ b ∈ orbit stay a, rank b ≤ rank a := by
      intro b hb
      induction hb with
      | refl => exact le_rfl
      | tail _ hbc ih => exact (hrank _ _ hbc).trans ih
    -- Before the first drop a walk is in the orbit of `stay`, and past it in an orbit of lower rank.
    have hfinite : (orbit stay a ∪ ⋃ b ∈ orbit stay a, ⋃ c ∈ {c | drop b c},
        orbit (fun a b => stay a b ∨ drop a b) c).Finite := by
      refine (hstay a).union ((hstay a).biUnion fun b hb => (hbranch b).biUnion fun c hc => ?_)
      have hlt : rank c < n := hn ▸ (hdrop b c hc).trans_le (hle b hb)
      exact ih _ hlt c rfl
    refine hfinite.subset fun c hc => ?_
    induction hc with
    | refl => exact Or.inl (mem_orbit_self stay a)
    | @tail b c _ hbc ihc =>
      rcases ihc with hb | hb
      · rcases hbc with hbc | hbc
        · exact Or.inl (orbit_next hb hbc)
        · exact Or.inr (Set.mem_iUnion₂.mpr ⟨b, hb, Set.mem_iUnion₂.mpr
            ⟨c, hbc, mem_orbit_self _ c⟩⟩)
      · obtain ⟨b', hb', hb⟩ := Set.mem_iUnion₂.mp hb
        obtain ⟨c', hc', hb⟩ := Set.mem_iUnion₂.mp hb
        exact Or.inr (Set.mem_iUnion₂.mpr ⟨b', hb', Set.mem_iUnion₂.mpr
          ⟨c', hc', orbit_next hb hbc⟩⟩)

end Orbit

/-! ## The loop -/

section Loop

variable {σ τ : Type} [DecidableEq τ] (key : σ → τ) (successors : σ → List σ)

/-- `while let Some(item) = pending.pop() { if !seen.insert(key) { continue } .. }`, which collects
the keys of the items without successors. The top of the stack is the head of the list. -/
def seenLoop : ℕ → Finset τ → List τ → List σ → Run (List τ)
  | 0, _, _, _ => .running
  | _ + 1, _, leaves, [] => .done leaves
  | fuel + 1, seen, leaves, item :: pending =>
    if key item ∈ seen then seenLoop fuel seen leaves pending
    else
      match successors item with
      | [] => seenLoop fuel (insert (key item) seen) (leaves ++ [key item]) pending
      | items => seenLoop fuel (insert (key item) seen) leaves (items.reverse ++ pending)

variable {key successors}

theorem seenLoop_seen {fuel : ℕ} {seen : Finset τ} {leaves : List τ} {item : σ} {pending : List σ}
    (h : key item ∈ seen) : seenLoop key successors (fuel + 1) seen leaves (item :: pending) =
      seenLoop key successors fuel seen leaves pending := by
  rw [seenLoop, if_pos h]

/-- The turn for an item that is not seen yet. -/
theorem seenLoop_fresh {fuel : ℕ} {seen : Finset τ} {leaves : List τ} {item : σ} {pending : List σ}
    (h : key item ∉ seen) : seenLoop key successors (fuel + 1) seen leaves (item :: pending) =
      seenLoop key successors fuel (insert (key item) seen)
        (if (successors item).isEmpty then leaves ++ [key item] else leaves)
        ((successors item).reverse ++ pending) := by
  rw [seenLoop, if_neg h]
  cases successors item <;> rfl

theorem seenLoop_ne_panic (fuel : ℕ) (seen : Finset τ) (leaves : List τ) (pending : List σ) :
    seenLoop key successors fuel seen leaves pending ≠ .panic := by
  induction fuel generalizing seen leaves pending with
  | zero => exact fun h => nomatch h
  | succ fuel ih =>
    cases pending with
    | nil => exact fun h => nomatch h
    | cons item pending =>
      by_cases hseen : key item ∈ seen
      · rw [seenLoop_seen hseen]
        exact ih _ _ _
      · rw [seenLoop_fresh hseen]
        exact ih _ _ _

/-- Items in a finite set that contains all successors. -/
theorem seenLoop_done {s : Set σ} (hs : s.Finite) (hclosed : ∀ a ∈ s, ∀ b ∈ successors a, b ∈ s)
    (seen : Finset τ) (leaves : List τ) (pending : List σ) (h : ∀ a ∈ pending, a ∈ s) :
    ∃ fuel result, seenLoop key successors fuel seen leaves pending = .done result := by
  -- The induction is on the keys that are not seen yet, and below it on the stack.
  induction hn : ((hs.toFinset.image key) \ seen).card using Nat.strong_induction_on
    generalizing seen leaves pending with
  | _ n ih =>
    induction pending generalizing leaves with
    | nil => exact ⟨1, leaves, rfl⟩
    | cons item pending ihpending =>
      have hitem : item ∈ s := h item List.mem_cons_self
      have hpending : ∀ a ∈ pending, a ∈ s := fun a ha => h a (List.mem_cons_of_mem item ha)
      by_cases hseen : key item ∈ seen
      · obtain ⟨fuel, result, hresult⟩ := ihpending leaves hpending
        exact ⟨fuel + 1, result, (seenLoop_seen hseen).trans hresult⟩
      · have hlt : ((hs.toFinset.image key) \ insert (key item) seen).card < n := by
          rw [← hn, Finset.sdiff_insert]
          refine Finset.card_erase_lt_of_mem (Finset.mem_sdiff.mpr ⟨?_, hseen⟩)
          exact Finset.mem_image_of_mem key (hs.mem_toFinset.mpr hitem)
        have hall : ∀ a ∈ (successors item).reverse ++ pending, a ∈ s := by
          intro a ha
          rcases List.mem_append.mp ha with ha | ha
          · exact hclosed item hitem a (List.mem_reverse.mp ha)
          · exact hpending a ha
        obtain ⟨fuel, result, hresult⟩ := ih _ hlt (insert (key item) seen)
          (if (successors item).isEmpty then leaves ++ [key item] else leaves) _ hall rfl
        exact ⟨fuel + 1, result, (seenLoop_fresh hseen).trans hresult⟩

/-- The keys that a loop has seen when it ends. -/
theorem seenLoop_closed {fuel : ℕ} {seen : Finset τ} {leaves result : List τ} {pending : List σ}
    (h : seenLoop key successors fuel seen leaves pending = .done result) :
    ∃ final : Finset τ, seen ⊆ final ∧ (∀ a ∈ pending, key a ∈ final) ∧
      ∀ t ∈ final, t ∈ seen ∨ ∃ a, key a = t ∧ ∀ b ∈ successors a, key b ∈ final := by
  induction fuel generalizing seen leaves pending with
  | zero => cases h
  | succ fuel ih =>
    cases pending with
    | nil => exact ⟨seen, subset_rfl, by simp, fun t ht => Or.inl ht⟩
    | cons item pending =>
      by_cases hseen : key item ∈ seen
      · obtain ⟨final, hsub, hpending, hclosed⟩ := ih ((seenLoop_seen hseen).symm.trans h)
        refine ⟨final, hsub, fun a ha => ?_, hclosed⟩
        rcases List.mem_cons.mp ha with rfl | ha
        · exact hsub hseen
        · exact hpending a ha
      · obtain ⟨final, hsub, hpending, hclosed⟩ := ih ((seenLoop_fresh hseen).symm.trans h)
        have hsuccessors : ∀ b ∈ successors item, key b ∈ final := fun b hb =>
          hpending b (List.mem_append_left _ (List.mem_reverse.mpr hb))
        refine ⟨final, (Finset.subset_insert _ _).trans hsub, fun a ha => ?_, fun t ht => ?_⟩
        · rcases List.mem_cons.mp ha with rfl | ha
          · exact hsub (Finset.mem_insert_self _ _)
          · exact hpending a (List.mem_append_right _ ha)
        · rcases hclosed t ht with ht | ht
          · rcases Finset.mem_insert.mp ht with rfl | ht
            · exact Or.inr ⟨item, rfl, hsuccessors⟩
            · exact Or.inl ht
          · exact Or.inr ht

end Loop

end FuelLoops
