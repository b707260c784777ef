import Mathlib

/-!
# Texts with blanks

A view of a text shows some of its symbols and leaves the others blank (`View`). Its words are
the runs of symbols between blanks, and `collapse` writes them with one separator between two of
them (`collapse_eq`).

The names in a view are the longest runs of symbols of a class. A name is replaced wherever it is
such a run (`replaceName`). The words that come out do not depend on how many blanks stand
together, or at the ends (`words_replaceName_of_reshapes`), and a name that was put in place of
another can be replaced in turn, unless it was there before (`replaceName_replaceName`).
-/

namespace TextViews

open List

variable {α : Type}

/-- The symbols of a text that are shown. -/
abbrev View (α : Type) := List (Option α)

/-! ## Words -/

section Words

variable (sep : α)

/-- Writes the symbols. A separator comes before a symbol if blanks stand before it, and other
symbols before these. -/
def collapse : Bool → Bool → View α → List α
  | _, _, [] => []
  | _, emitted, none :: v => collapse emitted emitted v
  | pending, _, some a :: v => (if pending then [sep] else []) ++ a :: collapse false true v

/-- The runs of symbols between blanks. -/
def words (v : View α) : List (List α) :=
  ((v.splitOnP (·.isNone)).filter (!·.isEmpty)).map (·.reduceOption)

theorem words_nil : words ([] : View α) = [] := by simp [words]

theorem words_append_none (v w : View α) : words (v ++ none :: w) = words v ++ words w := by
  rw [words, words, words, splitOnP_append_cons v w rfl, filter_append, map_append]

theorem words_replicate_append {k : ℕ} (v : View α) : words (replicate k none ++ v) = words v := by
  induction k with
  | zero => rfl
  | succ k ih =>
    have hcut := words_append_none [] (replicate k none ++ v)
    rwa [words_nil, nil_append, nil_append, ih] at hcut

theorem words_append_replicate {k : ℕ} (v : View α) : words (v ++ replicate k none) = words v := by
  cases k with
  | zero => rw [replicate_zero, append_nil]
  | succ k =>
    have hrest : words (replicate k (none : Option α)) = [] := by
      have h := words_replicate_append (k := k) ([] : View α)
      rwa [append_nil, words_nil] at h
    rw [replicate_succ, words_append_none, hrest, append_nil]

theorem words_append_replicate_append {k : ℕ} (hk : 0 < k) (v w : View α) :
    words (v ++ replicate k none ++ w) = words v ++ words w := by
  obtain ⟨k, rfl⟩ : ∃ n, k = n + 1 := ⟨k - 1, by omega⟩
  rw [replicate_succ, append_assoc, cons_append, words_append_none, words_replicate_append]

variable {sep}

/-- What the words after the first are written as. -/
theorem intercalate_cons (w : List α) (ws : List (List α)) :
    [sep].intercalate (w :: ws) = w ++ ws.flatMap (sep :: ·) := by
  induction ws generalizing w with
  | nil => simp
  | cons w' ws ih => rw [intercalate_cons_cons, ih, flatMap_cons]; simp

theorem collapse_of_splitOnP {v : View α} : ∀ {run : View α} {runs : List (View α)},
    v.splitOnP (·.isNone) = run :: runs → collapse sep false true v = run.reduceOption ++
        ((runs.filter (!·.isEmpty)).map (·.reduceOption)).flatMap (sep :: ·) ∧
      collapse sep true true v =
        (((run :: runs).filter (!·.isEmpty)).map (·.reduceOption)).flatMap (sep :: ·) ∧
      collapse sep false false v =
        [sep].intercalate (((run :: runs).filter (!·.isEmpty)).map (·.reduceOption)) := by
  induction v with
  | nil =>
    intro run runs h
    obtain ⟨rfl, rfl⟩ : run = [] ∧ runs = [] := by simpa [eq_comm] using h
    exact ⟨rfl, rfl, rfl⟩
  | cons x v ih =>
    intro run runs h
    obtain ⟨run', runs', h'⟩ := exists_cons_of_ne_nil (splitOnP_ne_nil (·.isNone) v)
    obtain ⟨hinside, hgap, hstart⟩ := ih h'
    rw [splitOnP_cons_eq_if_modifyHead, h'] at h
    cases x with
    | none =>
      obtain ⟨rfl, rfl⟩ : run = [] ∧ runs = run' :: runs' := by simpa [eq_comm] using h
      exact ⟨hgap, hgap, hstart⟩
    | some a =>
      obtain ⟨rfl, rfl⟩ : run = some a :: run' ∧ runs = runs' := by simpa [eq_comm] using h
      refine ⟨?_, ?_, ?_⟩
      · simp [collapse, hinside, reduceOption_cons_of_some]
      · simp [collapse, hinside, reduceOption_cons_of_some]
      · simp [collapse, hinside, reduceOption_cons_of_some, intercalate_cons]

/-- The words with one separator between two of them. -/
theorem collapse_eq (v : View α) : collapse sep false false v = [sep].intercalate (words v) := by
  obtain ⟨run, runs, h⟩ := exists_cons_of_ne_nil (splitOnP_ne_nil (·.isNone) v)
  rw [(collapse_of_splitOnP h).2.2, words, h]

end Words

/-! ## Blanks that come together -/

/-- Blanks in one place are replaced by other blanks. Only at the ends may there be none. -/
inductive Reshapes : View α → View α → Prop
  | inside {k k' : ℕ} (v w : View α) : 0 < k → 0 < k' →
      Reshapes (v ++ List.replicate k none ++ w) (v ++ List.replicate k' none ++ w)
  | start (k k' : ℕ) (w : View α) :
      Reshapes (List.replicate k none ++ w) (List.replicate k' none ++ w)
  | stop (k k' : ℕ) (v : View α) :
      Reshapes (v ++ List.replicate k none) (v ++ List.replicate k' none)

/-! ## Names -/

section Names

variable (isPart : α → Bool)

/-- Two symbols that belong to one name. -/
def joined (a b : Option α) : Bool := a.any isPart && b.any isPart

/-- The names, and the other symbols and blanks one by one. -/
def pieces (v : View α) : List (View α) := v.splitBy (joined isPart)

/-- Every name that is equal to `name` gives way to `new`. -/
def replaceName [DecidableEq α] (name : List α) (new : View α) (v : View α) : View α :=
  (pieces isPart v).flatMap fun piece => if piece = name.map some then new else piece

variable {isPart}

@[simp] theorem joined_none_left (b : Option α) : joined isPart none b = false := rfl

@[simp] theorem joined_none_right (a : Option α) : joined isPart a none = false :=
  Bool.and_false _

theorem pieces_append_none (v w : View α) :
    pieces isPart (v ++ none :: w) = pieces isPart v ++ [none] :: pieces isPart w := by
  have hfirst : pieces isPart (v ++ none :: w) = pieces isPart v ++ pieces isPart (none :: w) :=
    splitBy_append_cons _ fun x _ => joined_none_right x
  have hsecond : pieces isPart ([none] ++ w) = pieces isPart [none] ++ pieces isPart w :=
    splitBy_append fun x hx y _ => by
      obtain rfl : none = x := by simpa using hx
      exact joined_none_left y
  rw [hfirst]
  exact congrArg _ hsecond

variable {name : List α} {new : View α}

/-- A name is not empty, and its symbols belong to one name. -/
def IsName (isPart : α → Bool) (name : List α) : Prop := name ≠ [] ∧ ∀ a ∈ name, isPart a = true

theorem IsName.joined_getLast (h : IsName isPart name) (hne : name.map some ≠ []) (b : Option α) :
    joined isPart ((name.map some).getLast hne) b = b.any isPart := by
  have hpart : ((name.map some).getLast hne).any isPart = true := by
    rw [getLast_map]
    exact h.2 _ (getLast_mem _)
  rw [joined, hpart, Bool.true_and]

theorem IsName.joined_head (h : IsName isPart name) (hne : name.map some ≠ []) (a : Option α) :
    joined isPart a ((name.map some).head hne) = a.any isPart := by
  have hpart : ((name.map some).head hne).any isPart = true := by
    rw [head_map]
    exact h.2 _ (head_mem _)
  rw [joined, hpart, Bool.and_true]

theorem IsName.isChain (h : IsName isPart name) :
    (name.map some).IsChain fun a b => joined isPart a b := by
  refine (isChain_map _).mpr (List.Pairwise.isChain ?_)
  refine List.Pairwise.imp_of_mem (R := fun _ _ => True) (fun ha hb _ => ?_)
    (pairwise_of_forall fun _ _ => trivial)
  exact Bool.and_eq_true_iff.mpr ⟨h.2 _ ha, h.2 _ hb⟩

variable [DecidableEq α]

theorem replaceName_append_none (v w : View α) : replaceName isPart name new (v ++ none :: w) =
    replaceName isPart name new v ++ none :: replaceName isPart name new w := by
  have hne : [(none : Option α)] ≠ name.map some := by
    cases name <;> simp
  simp only [replaceName, pieces_append_none, flatMap_append, flatMap_cons, if_neg hne,
    singleton_append]

theorem replaceName_nil : replaceName isPart name new [] = [] := rfl

/-- A name up to a symbol or a blank that does not go on with it. -/
theorem replaceName_append_name {w : List α} (hw : IsName isPart w) {v : View α}
    (hv : ∀ y ∈ v.head?, y.any isPart = false) : replaceName isPart name new (w.map some ++ v) =
      (if w = name then new else w.map some) ++ replaceName isPart name new v := by
  have hne : w.map some ≠ [] := mt map_eq_nil_iff.mp hw.1
  have hcut : pieces isPart (w.map some ++ v) = w.map some :: pieces isPart v := by
    rw [pieces, splitBy_append, splitBy_of_isChain hne hw.isChain]
    · rfl
    · intro x _ y hy
      rw [joined, hv y hy, Bool.and_false]
  have hinj : w.map some = name.map some ↔ w = name :=
    (map_injective_iff.mpr fun _ _ => Option.some.inj).eq_iff
  simp only [replaceName, hcut, flatMap_cons, hinj]

/-- A symbol that belongs to no name stays. -/
theorem replaceName_cons (hname : IsName isPart name) {x : Option α}
    (hx : x.any isPart = false) (v : View α) :
    replaceName isPart name new (x :: v) = x :: replaceName isPart name new v := by
  have hcut : pieces isPart ([x] ++ v) = pieces isPart [x] ++ pieces isPart v :=
    splitBy_append fun x' hx' y _ => by
      obtain rfl : x = x' := by simpa using hx'
      rw [joined, hx, Bool.false_and]
  have hne : [x] ≠ name.map some := by
    intro heq
    have hmem : x ∈ name.map some := heq ▸ mem_singleton_self x
    obtain ⟨a, ha, rfl⟩ := mem_map.mp hmem
    exact absurd ((hname.2 a ha).symm.trans hx) (by decide)
  have hone : pieces isPart [x] = [[x]] := rfl
  rw [← singleton_append, replaceName, hcut, hone]
  simp only [replaceName, flatMap_cons, if_neg hne, cons_append, nil_append]

theorem replaceName_empty (v : View α) : replaceName isPart [] new v = v := by
  have hsame : ∀ piece ∈ pieces isPart v,
      (if piece = ([] : List α).map some then new else piece) = piece :=
    fun piece hpiece => if_neg (ne_nil_of_mem_splitBy hpiece)
  rw [replaceName, flatMap_congr hsame]
  exact flatMap_id'.trans (flatten_splitBy _ v)

theorem replaceName_replicate_append {k : ℕ} (w : View α) :
    replaceName isPart name new (replicate k none ++ w) =
      replicate k none ++ replaceName isPart name new w := by
  induction k with
  | zero => rfl
  | succ k ih =>
    have hcut : replaceName isPart name new ([] ++ none :: (replicate k none ++ w)) = _ :=
      replaceName_append_none _ _
    rwa [replaceName_nil, nil_append, nil_append, ih] at hcut

theorem replaceName_append_replicate {k : ℕ} (hk : 0 < k) (v w : View α) :
    replaceName isPart name new (v ++ replicate k none ++ w) =
      replaceName isPart name new v ++ replicate k none ++ replaceName isPart name new w := by
  obtain ⟨k, rfl⟩ : ∃ n, k = n + 1 := ⟨k - 1, by omega⟩
  rw [replicate_succ, append_assoc, cons_append, replaceName_append_none,
    replaceName_replicate_append, append_assoc, cons_append]

/-- Names are replaced apart from the blanks. -/
theorem words_replaceName_of_reshapes {v w : View α} (h : Reshapes v w) :
    words (replaceName isPart name new v) = words (replaceName isPart name new w) := by
  cases h with
  | inside v w hk hk' =>
    rw [replaceName_append_replicate hk, replaceName_append_replicate hk',
      words_append_replicate_append hk, words_append_replicate_append hk']
  | start k k' w =>
    rw [replaceName_replicate_append, replaceName_replicate_append, words_replicate_append,
      words_replicate_append]
  | stop k k' v =>
    have hstop : ∀ k, words (replaceName isPart name new (v ++ replicate k none)) =
        words (replaceName isPart name new v) := by
      intro k
      cases k with
      | zero => rw [replicate_zero, append_nil]
      | succ k =>
        have h : replaceName isPart name new (v ++ replicate (k + 1) none ++ []) = _ :=
          replaceName_append_replicate k.succ_pos v []
        rw [append_nil] at h
        rw [h, replaceName_nil, append_nil, words_append_replicate]
    rw [hstop, hstop]

/-! ## A name in place of another -/

/-- The pieces of a view in which a name was replaced by another name. -/
theorem pieces_replaceName {name' : List α} (h : IsName isPart name) (h' : IsName isPart name')
    (v : View α) : pieces isPart (replaceName isPart name (name'.map some) v) =
      (pieces isPart v).map fun piece =>
        if piece = name.map some then name'.map some else piece := by
  have hne' : name'.map some ≠ [] := mt map_eq_nil_iff.mp h'.1
  unfold replaceName pieces
  rw [flatMap_def]
  refine splitBy_flatten ?_ ?_ ?_
  · intro hmem
    obtain ⟨piece, hpiece, heq⟩ := mem_map.mp hmem
    split_ifs at heq with hname
    · exact hne' heq
    · exact ne_nil_of_mem_splitBy hpiece heq
  · intro piece' hmem
    obtain ⟨piece, hpiece, rfl⟩ := mem_map.mp hmem
    split_ifs with hname
    · exact h'.isChain
    · exact isChain_of_mem_splitBy hpiece
  · refine (isChain_map _).mpr ((isChain_getLast_head_splitBy _ v).imp ?_)
    rintro a b ⟨ha, hb, hcut⟩
    -- A replaced piece meets its neighbours as before.
    by_cases hna : a = name.map some <;> by_cases hnb : b = name.map some
    · subst hna
      subst hnb
      rw [h.joined_getLast] at hcut
      have hpart : ((name.map some).head hb).any isPart = true := by
        rw [head_map]
        exact h.2 _ (head_mem _)
      exact absurd (hpart.symm.trans hcut) (by decide)
    · subst hna
      rw [h.joined_getLast] at hcut
      simp only [if_true, if_neg hnb]
      exact ⟨hne', hb, by rw [h'.joined_getLast, hcut]⟩
    · subst hnb
      rw [h.joined_head] at hcut
      simp only [if_true, if_neg hna]
      exact ⟨ha, hne', by rw [h'.joined_head, hcut]⟩
    · simp only [if_neg hna, if_neg hnb]
      exact ⟨ha, hb, hcut⟩

theorem replaceName_replaceName {name' : List α} (h : IsName isPart name)
    (h' : IsName isPart name') {v : View α} (hnew : name'.map some ∉ pieces isPart v) :
    replaceName isPart name' new (replaceName isPart name (name'.map some) v) =
      replaceName isPart name new v := by
  rw [replaceName, pieces_replaceName h h', flatMap_map, replaceName]
  refine flatMap_congr fun piece hpiece => ?_
  by_cases hname : piece = name.map some
  · simp [hname]
  · have hne : piece ≠ name'.map some := fun heq => hnew (heq ▸ hpiece)
    simp [hname, hne]

end Names

end TextViews
