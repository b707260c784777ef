import Mathlib

/-!
# Counting connected components

`components` counts the components of a finite graph : it goes over the vertices, and from each
one that is not seen yet a worklist marks what can be reached (`explore`). The neighbours may be
listed in any order. The count is the number of connected components (`components_eq_card`).

Fewer edges make as many components if and only if each edge that is left out joins what is
joined anyway (`card_connectedComponent_eq_iff`).
-/

namespace Components

open List Function

variable {V : Type} [DecidableEq V]

/-! ## The worklist -/

/-- `for next in neighbours { if !seen[next] { seen[next] = true; stack.push(next) } }`. -/
def push (seen : Finset V) (stack : List V) : List V → Finset V × List V
  | [] => (seen, stack)
  | v :: vs => if v ∈ seen then push seen stack vs else push (insert v seen) (v :: stack) vs

/-- Whatever goes on the stack is seen from then on. -/
theorem push_measure [Fintype V] : ∀ (seen : Finset V) (stack vs : List V),
    ((push seen stack vs).1)ᶜ.card + (push seen stack vs).2.length = seenᶜ.card + stack.length
  | _, _, [] => rfl
  | seen, stack, v :: vs => by
    rw [push]
    split_ifs with hv
    · exact push_measure seen stack vs
    · have hmem : v ∈ seenᶜ := Finset.mem_compl.mpr hv
      have hpos : 0 < seenᶜ.card := Finset.card_pos.mpr ⟨v, hmem⟩
      rw [push_measure, Finset.compl_insert, Finset.card_erase_of_mem hmem, length_cons]
      omega

variable (next : V → List V)

/-- `while let Some(idx) = stack.pop()`. The top of the stack is the head of the list. -/
def explore [Fintype V] (seen : Finset V) (stack : List V) : Finset V :=
  match stack with
  | [] => seen
  | v :: rest => explore (push seen rest (next v)).1 (push seen rest (next v)).2
termination_by seenᶜ.card + stack.length
decreasing_by
  rw [push_measure, List.length_cons]
  omega

/-- The loop over the vertices that may start a component. -/
def count [Fintype V] (seen : Finset V) (found : ℕ) : List V → ℕ
  | [] => found
  | v :: vs =>
    if v ∈ seen then count seen found vs
    else count (explore next (insert v seen) [v]) (found + 1) vs

def components [Fintype V] (vertices : List V) : ℕ := count next ∅ 0 vertices

/-! ## What is seen -/

variable {next}

theorem push_spec : ∀ (seen : Finset V) (stack vs : List V),
    (∀ v, v ∈ (push seen stack vs).1 ↔ v ∈ seen ∨ v ∈ vs) ∧
      ∀ v, v ∈ (push seen stack vs).2 ↔ v ∈ stack ∨ (v ∈ vs ∧ v ∉ seen)
  | _, _, [] => by simp [push]
  | seen, stack, w :: vs => by
    rw [push]
    split_ifs with hw
    · obtain ⟨hseen, hstack⟩ := push_spec seen stack vs
      refine ⟨fun v => ?_, fun v => ?_⟩
      · rw [hseen, mem_cons]
        grind
      · rw [hstack, mem_cons]
        grind
    · obtain ⟨hseen, hstack⟩ := push_spec (insert w seen) (w :: stack) vs
      refine ⟨fun v => ?_, fun v => ?_⟩
      · rw [hseen, Finset.mem_insert, mem_cons]
        grind
      · rw [hstack, Finset.mem_insert, mem_cons, mem_cons]
        grind

/-- Everything seen is on the stack or has all of its neighbours seen. -/
def Frontier (next : V → List V) (seen : Finset V) (stack : List V) : Prop :=
  (∀ v ∈ stack, v ∈ seen) ∧ ∀ v ∈ seen, v ∈ stack ∨ ∀ w ∈ next v, w ∈ seen

theorem Frontier.push {seen : Finset V} {v : V} {rest : List V}
    (h : Frontier next seen (v :: rest)) :
    Frontier next (push seen rest (next v)).1 (push seen rest (next v)).2 := by
  obtain ⟨hstack, hseen⟩ := h
  obtain ⟨hfst, hsnd⟩ := push_spec seen rest (next v)
  refine ⟨fun w hw => ?_, fun w hw => ?_⟩
  · rcases (hsnd w).mp hw with hw | ⟨hw, -⟩
    · exact (hfst w).mpr (Or.inl (hstack w (mem_cons_of_mem v hw)))
    · exact (hfst w).mpr (Or.inr hw)
  · by_cases hold : w ∈ seen
    · rcases hseen w hold with hin | hall
      · rcases mem_cons.mp hin with rfl | hin
        · exact Or.inr fun u hu => (hfst u).mpr (Or.inr hu)
        · exact Or.inl ((hsnd w).mpr (Or.inl hin))
      · exact Or.inr fun u hu => (hfst u).mpr (Or.inl (hall u hu))
    · exact Or.inl ((hsnd w).mpr (Or.inr ⟨((hfst w).mp hw).resolve_left hold, hold⟩))

/-- What the worklist marks : it is closed under neighbours, and nothing is marked that a
vertex of the stack does not lead to. -/
theorem explore_spec [Fintype V] {seen : Finset V} {stack : List V} (h : Frontier next seen stack) :
    seen ⊆ explore next seen stack ∧
      (∀ v ∈ explore next seen stack, ∀ w ∈ next v, w ∈ explore next seen stack) ∧
      ∀ v ∈ explore next seen stack, v ∈ seen ∨
        ∃ u ∈ stack, Relation.ReflTransGen (fun a b => b ∈ next a) u v := by
  fun_induction explore next seen stack with
  | case1 seen =>
    refine ⟨subset_rfl, fun v hv => ?_, fun v hv => Or.inl hv⟩
    exact (h.2 v hv).resolve_left not_mem_nil
  | case2 seen u rest ih =>
    obtain ⟨hsub, hclosed, hsound⟩ := ih h.push
    obtain ⟨hfst, hsnd⟩ := push_spec seen rest (next u)
    refine ⟨fun v hv => hsub ((hfst v).mpr (Or.inl hv)), hclosed, fun v hv => ?_⟩
    have hnext : ∀ w, w ∈ next u → Relation.ReflTransGen (fun a b => b ∈ next a) u w :=
      fun w hw => Relation.ReflTransGen.single hw
    rcases hsound v hv with hin | ⟨w, hw, hpath⟩
    · rcases (hfst v).mp hin with hin | hin
      · exact Or.inl hin
      · exact Or.inr ⟨u, mem_cons_self, hnext v hin⟩
    · rcases (hsnd w).mp hw with hw | ⟨hw, -⟩
      · exact Or.inr ⟨w, mem_cons_of_mem u hw, hpath⟩
      · exact Or.inr ⟨u, mem_cons_self, (hnext w hw).trans hpath⟩

/-! ## The count -/

variable {G : SimpleGraph V}

omit [DecidableEq V] in
theorem reachable_iff_reflTransGen (hnext : ∀ a b, b ∈ next a ↔ G.Adj a b) {u v : V} :
    Relation.ReflTransGen (fun a b => b ∈ next a) u v ↔ G.Reachable u v := by
  rw [SimpleGraph.reachable_iff_reflTransGen]
  have hrel : (fun a b => b ∈ next a) = G.Adj := by
    funext a b
    exact propext (hnext a b)
  rw [hrel]

/-- From a set that is closed under neighbours, the worklist adds one component. -/
theorem mem_explore_iff [Fintype V] (hnext : ∀ a b, b ∈ next a ↔ G.Adj a b) {seen : Finset V}
    (hseen : ∀ v ∈ seen, ∀ w ∈ next v, w ∈ seen) {start : V} (v : V) :
    v ∈ explore next (insert start seen) [start] ↔ v ∈ seen ∨ G.Reachable start v := by
  have hfrontier : Frontier next (insert start seen) [start] := by
    refine ⟨fun w hw => ?_, fun w hw => ?_⟩
    · rw [mem_singleton.mp hw]
      exact Finset.mem_insert_self _ _
    · rcases Finset.mem_insert.mp hw with rfl | hw
      · exact Or.inl mem_cons_self
      · exact Or.inr fun u hu => Finset.mem_insert_of_mem (hseen w hw u hu)
  obtain ⟨hsub, hclosed, hsound⟩ := explore_spec hfrontier
  constructor
  · intro hv
    rcases hsound v hv with hv | ⟨u, hu, hpath⟩
    · rcases Finset.mem_insert.mp hv with rfl | hv
      · exact Or.inr (SimpleGraph.Reachable.refl _)
      · exact Or.inl hv
    · rw [mem_singleton.mp hu] at hpath
      exact Or.inr ((reachable_iff_reflTransGen hnext).mp hpath)
  · rintro (hv | hreach)
    · exact hsub (Finset.mem_insert_of_mem hv)
    · have hpath := (reachable_iff_reflTransGen hnext).mpr hreach
      induction hpath with
      | refl => exact hsub (Finset.mem_insert_self _ _)
      | tail hab hbc ih => exact hclosed _ (ih ((reachable_iff_reflTransGen hnext).mp hab)) _ hbc

omit [DecidableEq V] in
/-- A vertex that has not been seen lies in none of the components seen. -/
theorem notMem_image_of_notMem [DecidableEq G.ConnectedComponent]
    (hnext : ∀ a b, b ∈ next a ↔ G.Adj a b) {seen : Finset V}
    (hseen : ∀ v ∈ seen, ∀ w ∈ next v, w ∈ seen) {start : V} (hstart : start ∉ seen) :
    G.connectedComponentMk start ∉ seen.image G.connectedComponentMk := by
  intro hin
  obtain ⟨v, hv, heq⟩ := Finset.mem_image.mp hin
  have hpath := (reachable_iff_reflTransGen hnext).mpr (SimpleGraph.ConnectedComponent.exact heq)
  have hclosed : ∀ w, Relation.ReflTransGen (fun a b => b ∈ next a) v w → w ∈ seen := by
    intro w hw
    induction hw with
    | refl => exact hv
    | tail _ hbc ih => exact hseen _ ih _ hbc
  exact hstart (hclosed start hpath)

theorem image_explore [Fintype V] [DecidableEq G.ConnectedComponent]
    (hnext : ∀ a b, b ∈ next a ↔ G.Adj a b) {seen : Finset V}
    (hseen : ∀ v ∈ seen, ∀ w ∈ next v, w ∈ seen) (start : V) :
    (explore next (insert start seen) [start]).image G.connectedComponentMk =
      insert (G.connectedComponentMk start) (seen.image G.connectedComponentMk) := by
  ext c
  simp only [Finset.mem_image, Finset.mem_insert, mem_explore_iff hnext hseen]
  constructor
  · rintro ⟨v, hv | hv, rfl⟩
    · exact Or.inr ⟨v, hv, rfl⟩
    · exact Or.inl (SimpleGraph.ConnectedComponent.sound hv).symm
  · rintro (rfl | ⟨v, hv, rfl⟩)
    · exact ⟨start, Or.inr (SimpleGraph.Reachable.refl _), rfl⟩
    · exact ⟨v, Or.inl hv, rfl⟩

open Classical in
/-- The loop has found the components of what it has seen. -/
theorem count_eq [Fintype V] (hnext : ∀ a b, b ∈ next a ↔ G.Adj a b) : ∀ (vertices : List V)
    (seen : Finset V), (∀ v ∈ seen, ∀ w ∈ next v, w ∈ seen) → (∀ v, v ∈ seen ∨ v ∈ vertices) →
      count next seen (seen.image G.connectedComponentMk).card vertices =
        Nat.card G.ConnectedComponent
  | [], seen, _, hall => by
    have huniv : seen = Finset.univ := Finset.eq_univ_iff_forall.mpr fun v =>
      (hall v).resolve_right not_mem_nil
    have : Fintype G.ConnectedComponent := Fintype.ofFinite _
    have himage : Finset.univ.image G.connectedComponentMk = Finset.univ := by
      refine Finset.eq_univ_iff_forall.mpr fun c => ?_
      obtain ⟨v, rfl⟩ := Quot.exists_rep c
      exact Finset.mem_image_of_mem _ (Finset.mem_univ v)
    rw [count, huniv, himage, Finset.card_univ, Nat.card_eq_fintype_card]
  | start :: vertices, seen, hseen, hall => by
    rw [count]
    split_ifs with hstart
    · refine count_eq hnext vertices seen hseen fun v => ?_
      rcases hall v with hv | hv
      · exact Or.inl hv
      · rcases mem_cons.mp hv with rfl | hv
        · exact Or.inl hstart
        · exact Or.inr hv
    · have hmem : ∀ v, v ∈ explore next (insert start seen) [start] ↔
          v ∈ seen ∨ G.Reachable start v := fun v => mem_explore_iff hnext hseen v
      have hfresh := notMem_image_of_notMem hnext hseen hstart
      have hcard := congrArg Finset.card (image_explore hnext hseen start)
      rw [Finset.card_insert_of_notMem hfresh] at hcard
      rw [← hcard]
      refine count_eq hnext vertices _ (fun v hv w hw => ?_) fun v => ?_
      · rcases (hmem v).mp hv with hv | hv
        · exact (hmem w).mpr (Or.inl (hseen v hv w hw))
        · exact (hmem w).mpr (Or.inr (hv.trans ((hnext v w).mp hw).reachable))
      · rcases hall v with hv | hv
        · exact Or.inl ((hmem v).mpr (Or.inl hv))
        · rcases mem_cons.mp hv with rfl | hv
          · exact Or.inl ((hmem v).mpr (Or.inr (SimpleGraph.Reachable.refl _)))
          · exact Or.inr hv

/-- Over all vertices, in any order, the number of connected components. -/
theorem components_eq_card [Fintype V] (hnext : ∀ a b, b ∈ next a ↔ G.Adj a b) {vertices : List V}
    (hall : ∀ v, v ∈ vertices) : components next vertices = Nat.card G.ConnectedComponent := by
  have hcount := count_eq hnext vertices ∅ (by simp) fun v => Or.inr (hall v)
  simpa [components] using hcount

/-! ## A graph from a list of edges -/

/-- Both ends list each other. -/
def connect (next : V → List V) (a b : V) : V → List V :=
  if a = b then next
  else
    let next := Function.update next a ((next a).insert b)
    Function.update next b ((next b).insert a)

def ofEdges (edges : List (V × V)) : V → List V :=
  edges.foldl (fun next e => connect next e.1 e.2) fun _ => []

theorem mem_connect (next : V → List V) (a b v w : V) :
    w ∈ connect next a b v ↔ w ∈ next v ∨ a ≠ b ∧ (v = a ∧ w = b ∨ v = b ∧ w = a) := by
  unfold connect
  split_ifs with hab
  · simp [hab]
  · by_cases hv : v = b
    · subst hv
      simp only [update_self, mem_insert_iff, update_of_ne (Ne.symm hab)]
      grind
    · by_cases hva : v = a
      · subst hva
        simp only [update_of_ne hv, update_self, mem_insert_iff]
        grind
      · simp only [update_of_ne hv, update_of_ne hva]
        grind

/-- The neighbours in the graph of the edges. -/
theorem mem_ofEdges (edges : List (V × V)) (v w : V) :
    w ∈ ofEdges edges v ↔ (SimpleGraph.fromRel fun a b => (a, b) ∈ edges).Adj v w := by
  have hfold : ∀ (edges : List (V × V)) (next : V → List V),
      w ∈ edges.foldl (fun next e => connect next e.1 e.2) next v ↔
        w ∈ next v ∨ v ≠ w ∧ ((v, w) ∈ edges ∨ (w, v) ∈ edges) := by
    intro edges
    induction edges with
    | nil => simp
    | cons e edges ih =>
      intro next
      rw [foldl_cons, ih, mem_connect, mem_cons, mem_cons, Prod.ext_iff, Prod.ext_iff]
      grind
  rw [ofEdges, hfold, SimpleGraph.fromRel_adj]
  simp

/-! ## Fewer edges -/

omit [DecidableEq V] in
theorem fromRel_mono {r s : V → V → Prop} (h : ∀ a b, r a b → s a b) :
    SimpleGraph.fromRel r ≤ SimpleGraph.fromRel s := by
  intro a b hab
  rw [SimpleGraph.fromRel_adj] at hab ⊢
  exact ⟨hab.1, hab.2.imp (h a b) (h b a)⟩

omit [DecidableEq V] in
/-- A graph with fewer edges has as many components if and only if what the other edges join is
connected without them. -/
theorem card_connectedComponent_eq_iff [Finite V] {G H : SimpleGraph V} (hle : G ≤ H) :
    Nat.card H.ConnectedComponent = Nat.card G.ConnectedComponent ↔
      ∀ a b, H.Adj a b → G.Reachable a b := by
  have hsurj : Function.Surjective fun c : G.ConnectedComponent => c.map (.ofLE hle) := by
    intro c
    obtain ⟨v, rfl⟩ := Quot.exists_rep c
    exact ⟨G.connectedComponentMk v, rfl⟩
  constructor
  · intro hcard a b hab
    -- A surjection between finite types of one size is injective.
    have hinj := ((Nat.bijective_iff_surjective_and_card _).mpr ⟨hsurj, hcard.symm⟩).injective
    exact SimpleGraph.ConnectedComponent.exact
      (hinj (SimpleGraph.ConnectedComponent.sound hab.reachable))
  · intro h
    have hreach : ∀ a b, H.Reachable a b → G.Reachable a b := by
      intro a b hab
      rw [SimpleGraph.reachable_iff_reflTransGen] at hab
      induction hab with
      | refl => exact SimpleGraph.Reachable.refl _
      | tail _ hbc ih => exact ih.trans (h _ _ hbc)
    refine (Nat.card_eq_of_bijective _ ⟨fun c c' hcc => ?_, hsurj⟩).symm
    obtain ⟨a, rfl⟩ := Quot.exists_rep c
    obtain ⟨b, rfl⟩ := Quot.exists_rep c'
    exact SimpleGraph.ConnectedComponent.sound
      (hreach a b (SimpleGraph.ConnectedComponent.exact hcc))

end Components
