import CodeMoniker.PassLoops

/-!
# Passes that copy values along edges

A state gives some keys a value. A pass goes through a list of edges, and each edge whose source
has a value copies it to its target, over what the target had. Such passes may go on for ever : two
sources with different values that are copied to one target overwrite each other in every pass.

Values are only copied, so what a key has after some passes is what some key had at the start, its
`origin`, and that does not depend on the values. `quiet_iff_originsAgree` says when a pass comes to
change nothing : whenever the origins that are never lost and that edges link had one value.
-/

set_option linter.unusedSectionVars false

namespace CopyPasses

open Option FuelLoops Relation

variable {κ ν : Type} [DecidableEq κ] [DecidableEq ν]

/-- The value of the source of an edge is copied to its target. -/
def copy (s : κ → Option ν) (e : κ × κ) : (κ → Option ν) × Bool :=
  match s e.1 with
  | none => (s, false)
  | some v => (Function.update s e.2 (some v), decide (s e.2 ≠ some v))

/-- The state after some passes. -/
def after (l : List (κ × κ)) (s : κ → Option ν) : ℕ → κ → Option ν
  | 0 => s
  | n + 1 => (sweep copy (after l s n) l).1

variable {l : List (κ × κ)} {s : κ → Option ν} {e : κ × κ} {a b k o : κ}

/-! ## One step -/

theorem copy_apply (s : κ → Option ν) (e : κ × κ) (k : κ) :
    (copy s e).1 k = if k = e.2 ∧ s e.1 ≠ none then s e.1 else s k := by
  unfold copy
  cases hsource : s e.1 with
  | none => simp
  | some v => simp [Function.update_apply]

theorem copy_quiet_iff : (copy s e).2 = false ↔ (s e.1 ≠ none → s e.2 = s e.1) := by
  unfold copy
  cases hsource : s e.1 with
  | none => simp
  | some v => simp

theorem copy_of_quiet (h : (copy s e).2 = false) : (copy s e).1 = s := by
  ext1 k
  rw [copy_apply]
  split_ifs with hk
  · rw [hk.1, copy_quiet_iff.mp h hk.2]
  · rfl

/-- A key has what it had, or what the source of an edge had. -/
theorem copy_cases (s : κ → Option ν) (e : κ × κ) (k : κ) :
    (copy s e).1 k = s k ∨ k = e.2 ∧ s e.1 ≠ none ∧ (copy s e).1 k = s e.1 := by
  rw [copy_apply]
  split_ifs with hk
  · exact Or.inr ⟨hk.1, hk.2, rfl⟩
  · exact Or.inl rfl

theorem copy_ne_none (h : s k ≠ none) : (copy s e).1 k ≠ none := by
  rcases copy_cases s e k with hk | ⟨-, hsource, hk⟩
  · rwa [hk]
  · rwa [hk]

/-! ## One pass -/

theorem sweep_quiet (s : κ → Option ν) : ∀ l : List (κ × κ),
    ((sweep copy s l).2 = false ↔ ∀ e ∈ l, s e.1 ≠ none → s e.2 = s e.1)
  | [] => by simp [sweep]
  | e :: l => by
    rw [sweep, Bool.or_eq_false_iff, List.forall_mem_cons, ← copy_quiet_iff]
    refine and_congr_right fun hquiet => ?_
    rw [copy_of_quiet hquiet]
    exact sweep_quiet s l

theorem sweep_of_quiet : ∀ {l : List (κ × κ)} {s : κ → Option ν}, (sweep copy s l).2 = false →
    (sweep copy s l).1 = s
  | [], _, _ => rfl
  | e :: l, s, h => by
    rw [sweep, Bool.or_eq_false_iff] at h
    have hstep := copy_of_quiet h.1
    rw [hstep] at h
    rw [sweep, hstep]
    exact sweep_of_quiet h.2

/-- What holds of the states of a pass, as soon as each of its edges keeps it. -/
theorem sweep_induction {P : (κ → Option ν) → Prop} : ∀ {l : List (κ × κ)} {s : κ → Option ν},
    (∀ e ∈ l, ∀ s, P s → P (copy s e).1) → P s → P (sweep copy s l).1
  | [], _, _, hs => hs
  | e :: l, s, h, hs => by
    rw [sweep]
    refine sweep_induction (fun e' he' => ?_) (h e List.mem_cons_self s hs)
    exact h e' (List.mem_cons_of_mem e he')

theorem sweep_ne_none (l : List (κ × κ)) (h : s k ≠ none) : (sweep copy s l).1 k ≠ none :=
  sweep_induction (P := fun s => s k ≠ none) (fun _ _ _ => copy_ne_none) h

theorem sweep_target : ∀ {l : List (κ × κ)} {s : κ → Option ν}, (a, b) ∈ l → s a ≠ none →
    (sweep copy s l).1 b ≠ none
  | e :: l, s, h, ha => by
    rw [sweep]
    rcases List.mem_cons.mp h with rfl | h
    · refine sweep_ne_none l ?_
      rw [copy_apply, if_pos ⟨rfl, ha⟩]
      exact ha
    · exact sweep_target h (copy_ne_none ha)

/-- The values after a pass are among those before it. -/
theorem exists_of_sweep (l : List (κ × κ)) {v : ν} (h : (sweep copy s l).1 k = some v) :
    ∃ k', s k' = some v := by
  refine sweep_induction (P := fun t => ∀ k, t k = some v → ∃ k', s k' = some v) ?_
    (fun k hk => ⟨k, hk⟩) k h
  intro e _ t ht k hk
  rcases copy_cases t e k with hcopy | ⟨-, -, hcopy⟩
  · exact ht k (hcopy ▸ hk)
  · exact ht e.1 (hcopy ▸ hk)

/-! ## All passes -/

theorem after_ne_none_mono {m n : ℕ} (hmn : m ≤ n) (h : after l s m k ≠ none) :
    after l s n k ≠ none := by
  induction n, hmn using Nat.le_induction with
  | base => exact h
  | succ n _ ih => exact sweep_ne_none l ih

theorem after_of_quiet {m n : ℕ} (h : (sweep copy (after l s m) l).2 = false) (hmn : m ≤ n) :
    after l s n = after l s m := by
  induction n, hmn using Nat.le_induction with
  | base => rfl
  | succ n _ ih => rw [after, ih, sweep_of_quiet h]

/-! ## What gets a value -/

/-- Edges lead to `k` from a key that has a value at the start. -/
def Reached (l : List (κ × κ)) (s : κ → Option ν) (k : κ) : Prop :=
  ∃ o, s o ≠ none ∧ ReflTransGen (fun a b => (a, b) ∈ l) o k

theorem not_reached (hk : s k = none) (h : ∀ e ∈ l, e.2 ≠ k) : ¬Reached l s k := by
  rintro ⟨o, ho, hpath⟩
  rcases hpath.cases_tail with rfl | ⟨a, -, hedge⟩
  · exact ho hk
  · exact h (a, k) hedge rfl

theorem Reached.tail (h : Reached l s a) (hab : (a, b) ∈ l) : Reached l s b := by
  obtain ⟨o, ho, hpath⟩ := h
  exact ⟨o, ho, hpath.tail hab⟩

theorem reached_of_after {n : ℕ} (h : after l s n k ≠ none) : Reached l s k := by
  induction n generalizing k with
  | zero => exact ⟨k, h, ReflTransGen.refl⟩
  | succ n ih =>
    refine sweep_induction (P := fun t => ∀ k, t k ≠ none → Reached l s k) ?_ (fun _ => ih) k h
    intro e he t ht k hk
    rcases copy_cases t e k with hcopy | ⟨rfl, hsource, -⟩
    · exact ht k (hcopy ▸ hk)
    · exact (ht e.1 hsource).tail he

/-- What no edge with a value leads to keeps its value. -/
theorem after_of_not_fed (h : ∀ e ∈ l, e.2 = k → ¬Reached l s e.1) (n : ℕ) :
    after l s n k = s k := by
  induction n with
  | zero => rfl
  | succ n ih =>
    refine (sweep_induction (P := fun t => t k = s k ∧ ∀ a, t a ≠ none → Reached l s a) ?_
      ⟨ih, fun _ => reached_of_after⟩).1
    intro e he t ⟨ht, hreached⟩
    refine ⟨?_, fun a ha => ?_⟩
    · rcases copy_cases t e k with hcopy | ⟨hk, hsource, -⟩
      · rw [hcopy, ht]
      · exact absurd (hreached e.1 hsource) (h e he hk.symm)
    · rcases copy_cases t e a with hcopy | ⟨rfl, hsource, -⟩
      · exact hreached a (hcopy ▸ ha)
      · exact (hreached e.1 hsource).tail he

theorem after_of_reached (h : Reached l s k) : ∃ n, after l s n k ≠ none := by
  obtain ⟨o, ho, hpath⟩ := h
  induction hpath with
  | refl => exact ⟨0, ho⟩
  | tail _ hedge ih =>
    obtain ⟨n, hn⟩ := ih
    exact ⟨n + 1, sweep_target hedge hn⟩

/-! ## Where values come from -/

/-- The key that `k` has its value from after some passes. -/
def origin (l : List (κ × κ)) (s : κ → Option ν) : ℕ → κ → Option κ :=
  after l fun k => (s k).map fun _ => k

/-- An edge joins two keys when a value comes to its source. -/
def Feeds (l : List (κ × κ)) (s : κ → Option ν) (a b : κ) : Prop := (a, b) ∈ l ∧ Reached l s a

/-- Edges join two keys, whatever way they go. -/
def Linked (l : List (κ × κ)) (s : κ → Option ν) : κ → κ → Prop := EqvGen (Feeds l s)

/-- In every pass some key has its value from `o`. -/
def Survives (l : List (κ × κ)) (s : κ → Option ν) (o : κ) : Prop :=
  ∀ n, ∃ k, origin l s n k = some o

def OriginsAgree (l : List (κ × κ)) (s : κ → Option ν) : Prop :=
  ∀ o o', Linked l s o o' → Survives l s o → Survives l s o' → s o = s o'

/-- Copying commutes with a change of the values. -/
theorem sweep_map (f : κ → Option ν) : ∀ {l : List (κ × κ)} {t : κ → Option κ},
    (∀ k o, t k = some o → f o ≠ none) →
    (fun k => ((sweep copy t l).1 k).bind f) = (sweep copy (fun k => (t k).bind f) l).1
  | [], _, _ => rfl
  | e :: l, t, h => by
    have hnone : ∀ k, (t k).bind f ≠ none ↔ t k ≠ none := by
      intro k
      cases hk : t k with
      | none => simp
      | some o => simpa using h k o hk
    have hstep : (fun k => ((copy t e).1 k).bind f) = (copy (fun k => (t k).bind f) e).1 := by
      ext1 k
      simp only [copy_apply, hnone]
      split_ifs <;> rfl
    rw [sweep, sweep, ← hstep]
    refine sweep_map f fun k o hk => ?_
    rcases copy_cases t e k with hcopy | ⟨-, -, hcopy⟩
    · exact h k o (hcopy ▸ hk)
    · exact h e.1 o (hcopy ▸ hk)

theorem ne_none_of_origin {n : ℕ} (h : origin l s n k = some o) : s o ≠ none := by
  induction n generalizing k with
  | zero =>
    obtain ⟨v, hv, rfl⟩ := map_eq_some_iff.mp h
    simp [hv]
  | succ n ih =>
    obtain ⟨k', hk'⟩ := exists_of_sweep l h
    exact ih hk'

theorem after_eq_bind (n : ℕ) (k : κ) : after l s n k = (origin l s n k).bind s := by
  induction n generalizing k with
  | zero => cases h : s k with
    | none => simp [after, origin, h]
    | some v => simp [after, origin, h]
  | succ n ih =>
    have hmap := sweep_map s (l := l) fun k o (hk : origin l s n k = some o) =>
      ne_none_of_origin hk
    have hstate : (fun k => (origin l s n k).bind s) = after l s n := funext fun k => (ih k).symm
    rw [hstate] at hmap
    exact (congrFun hmap k).symm

theorem after_of_origin {n : ℕ} (h : origin l s n k = some o) : after l s n k = s o := by
  rw [after_eq_bind, h, bind_some]

theorem exists_origin {n : ℕ} (h : after l s n k ≠ none) : ∃ o, origin l s n k = some o := by
  refine ne_none_iff_exists'.mp fun horigin => h ?_
  rw [after_eq_bind, horigin, bind_none]

/-- Values do not leave the keys that edges link. -/
theorem linked_of_origin {n : ℕ} (h : origin l s n k = some o) : Linked l s o k := by
  induction n generalizing k o with
  | zero =>
    obtain ⟨v, hv, rfl⟩ := map_eq_some_iff.mp h
    exact EqvGen.refl _
  | succ n ih =>
    have hstart : ∀ k, (∀ o, origin l s n k = some o → Linked l s o k) ∧
        (origin l s n k ≠ none → Reached l s k) := by
      intro k
      refine ⟨fun o => ih, fun hk => ?_⟩
      obtain ⟨o, ho⟩ := ne_none_iff_exists'.mp hk
      refine reached_of_after (n := n) ?_
      rw [after_of_origin ho]
      exact ne_none_of_origin ho
    refine (sweep_induction (P := fun t => ∀ k, (∀ o, t k = some o → Linked l s o k) ∧
      (t k ≠ none → Reached l s k)) ?_ hstart k).1 o h
    intro e he t ht k
    rcases copy_cases t e k with hcopy | ⟨rfl, hsource, hcopy⟩
    · rw [hcopy]
      exact ht k
    · obtain ⟨hlinked, hreached⟩ := ht e.1
      rw [hcopy]
      refine ⟨fun o ho => ?_, fun _ => (hreached hsource).tail he⟩
      exact (hlinked o ho).trans _ _ _ (EqvGen.rel _ _ ⟨he, hreached hsource⟩)

/-- An origin that is lost stays lost. -/
theorem lost_mono {m n : ℕ} (hmn : m ≤ n) (h : ∀ k, origin l s m k ≠ some o) (k : κ) :
    origin l s n k ≠ some o := by
  induction n, hmn using Nat.le_induction generalizing k with
  | base => exact h k
  | succ n _ ih =>
    intro hk
    obtain ⟨k', hk'⟩ := exists_of_sweep l hk
    exact ih k' hk'

theorem survives_of_not_fed (ho : s o ≠ none) (h : ∀ e ∈ l, e.2 = o → ¬Reached l s e.1) :
    Survives l s o := by
  intro n
  refine ⟨o, ?_⟩
  have hreached : ∀ k, Reached l (fun k => (s k).map fun _ => k) k → Reached l s k := by
    rintro k ⟨o, ho, hpath⟩
    exact ⟨o, fun hnone => ho (map_eq_none_iff.mpr hnone), hpath⟩
  rw [origin, after_of_not_fed fun e he heo he' => h e he heo (hreached e.1 he')]
  obtain ⟨v, hv⟩ := ne_none_iff_exists'.mp ho
  rw [hv, map_some]

/-! ## When a pass changes nothing -/

/-- After enough passes all edges have a value that will ever have one, and only the origins are
left that are never lost. -/
theorem eventually_settled (hfin : {k | s k ≠ none}.Finite) :
    ∃ n, (∀ e ∈ l, Reached l s e.1 → after l s n e.1 ≠ none ∧ after l s n e.2 ≠ none) ∧
      ∀ k o, origin l s n k = some o → Survives l s o := by
  have hbound : ∀ e ∈ {e | e ∈ l}, ∀ᶠ n in Filter.atTop,
      Reached l s e.1 → after l s n e.1 ≠ none ∧ after l s n e.2 ≠ none := by
    intro e he
    by_cases hreached : Reached l s e.1
    · obtain ⟨n, hn⟩ := after_of_reached hreached
      filter_upwards [Filter.eventually_ge_atTop (n + 1)] with m hm _
      refine ⟨after_ne_none_mono (by omega) hn, ?_⟩
      exact after_ne_none_mono hm (sweep_target he hn)
    · exact Filter.Eventually.of_forall fun _ h => absurd h hreached
  have hlost : ∀ o ∈ {k | s k ≠ none}, ∀ᶠ n in Filter.atTop,
      ∀ k, origin l s n k = some o → Survives l s o := by
    intro o _
    by_cases hsurvives : Survives l s o
    · exact Filter.Eventually.of_forall fun _ _ _ => hsurvives
    · unfold Survives at hsurvives
      push Not at hsurvives
      obtain ⟨n, hn⟩ := hsurvives
      filter_upwards [Filter.eventually_ge_atTop n] with m hm k hk
      exact absurd hk (lost_mono hm hn k)
  have hedges := (Filter.eventually_all_finite l.finite_toSet).mpr hbound
  have horigins := (Filter.eventually_all_finite hfin).mpr hlost
  obtain ⟨n, hedges, horigins⟩ := (hedges.and horigins).exists
  exact ⟨n, hedges, fun k o ho => horigins o (ne_none_of_origin ho) k ho⟩

theorem quiet_iff_originsAgree (hfin : {k | s k ≠ none}.Finite) :
    (∃ n, (sweep copy (after l s n) l).2 = false) ↔ OriginsAgree l s := by
  constructor
  · rintro ⟨n, hquiet⟩ o o' hlinked ho ho'
    -- The quiet state has one value on all linked keys, those of the two origins among them.
    have hedge : ∀ a b, Feeds l s a b → after l s n a = after l s n b := by
      rintro a b ⟨hab, hreached⟩
      obtain ⟨m, hm⟩ := after_of_reached hreached
      have hbound : after l s n a ≠ none := by
        rw [← after_of_quiet hquiet (le_max_left n m)]
        exact after_ne_none_mono (le_max_right n m) hm
      exact ((sweep_quiet _ l).mp hquiet (a, b) hab hbound).symm
    have hconst : ∀ {a b}, Linked l s a b → after l s n a = after l s n b := by
      intro a b h
      induction h with
      | rel a b h => exact hedge a b h
      | refl a => rfl
      | symm a b _ ih => exact ih.symm
      | trans a b c _ _ hab hbc => exact hab.trans hbc
    obtain ⟨k, hk⟩ := ho n
    obtain ⟨k', hk'⟩ := ho' n
    calc s o = after l s n k := (after_of_origin hk).symm
      _ = after l s n o := (hconst (linked_of_origin hk)).symm
      _ = after l s n o' := hconst hlinked
      _ = after l s n k' := hconst (linked_of_origin hk')
      _ = s o' := after_of_origin hk'
  · intro hagree
    obtain ⟨n, hbound, hsurvives⟩ := eventually_settled (l := l) hfin
    refine ⟨n, (sweep_quiet _ l).mpr fun e he hsource => ?_⟩
    have hreached := reached_of_after hsource
    obtain ⟨hsource, htarget⟩ := hbound e he hreached
    obtain ⟨o, ho⟩ := exists_origin hsource
    obtain ⟨o', ho'⟩ := exists_origin htarget
    rw [after_of_origin ho, after_of_origin ho']
    have hedge : Linked l s e.1 e.2 := EqvGen.rel _ _ ⟨he, hreached⟩
    have hlinked := ((linked_of_origin ho).trans _ _ _ hedge).trans _ _ _
      ((linked_of_origin ho').symm _ _)
    exact (hagree o o' hlinked (hsurvives _ o ho) (hsurvives _ o' ho')).symm

/-- Two sources with different values, that nothing is copied to, keep a common target from coming
to rest. -/
theorem not_originsAgree_of_rivals (ha : (a, k) ∈ l) (hb : (b, k) ∈ l) (hsa : s a ≠ none)
    (hsb : s b ≠ none) (hne : s a ≠ s b) (hfa : ∀ e ∈ l, e.2 = a → ¬Reached l s e.1)
    (hfb : ∀ e ∈ l, e.2 = b → ¬Reached l s e.1) : ¬OriginsAgree l s := by
  intro hagree
  have hak : Linked l s a k := EqvGen.rel _ _ ⟨ha, a, hsa, ReflTransGen.refl⟩
  have hbk : Linked l s b k := EqvGen.rel _ _ ⟨hb, b, hsb, ReflTransGen.refl⟩
  have hab : Linked l s a b := hak.trans _ _ _ (hbk.symm _ _)
  exact hne (hagree a b hab (survives_of_not_fed hsa hfa) (survives_of_not_fed hsb hfb))

end CopyPasses
