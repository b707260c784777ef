import Mathlib

/-!
# Following cursors

A client fetches the first page of a list without a cursor, and every later page with the
cursor of the page before. When a page is a segment of the list and its cursor is the end of
the segment (`Serves`), following the cursors visits each row once, provided that every
segment before the end is not empty (`exists_follow`). A segment that is empty before the
end is fetched over and over (`follow_stuck`).
-/

set_option linter.unusedSectionVars false

namespace Paging

variable {α P C E : Type}

/-- The pages that are fetched from a cursor on, `none` when they are more than the fuel. -/
def follow (next : P → Option C) (fetch : Option C → Except E P) : ℕ → Option C → Option (List P)
  | 0, _ => none
  | fuel + 1, cursor =>
    match fetch cursor with
    | .error _ => none
    | .ok page =>
      match next page with
      | none => some [page]
      | some cursor => (follow next fetch fuel (some cursor)).map (page :: ·)

/-- A page that is fetched when the cursors are followed. -/
inductive Reached (next : P → Option C) (fetch : Option C → Except E P) : P → Prop where
  | first {page : P} : fetch none = .ok page → Reached next fetch page
  | step {page page' : P} {cursor : C} : Reached next fetch page → next page = some cursor →
      fetch (some cursor) = .ok page' → Reached next fetch page'

/-- The page of the segment that starts at `s`. -/
structure IsSegment (rows : List α) (stop : ℕ → ℕ) (at_ : ℕ → C) (items : P → List α)
    (next : P → Option C) (s : ℕ) (page : P) : Prop where
  items : items page = (rows.drop s).take (stop s - s)
  next : next page = if stop s < rows.length then some (at_ (stop s)) else none

/-- Every fetch returns a segment. -/
structure Serves (rows : List α) (stop : ℕ → ℕ) (at_ : ℕ → C) (items : P → List α)
    (next : P → Option C) (fetch : Option C → Except E P) : Prop where
  first : ∃ page, fetch none = .ok page ∧ IsSegment rows stop at_ items next 0 page
  rest : ∀ s < rows.length, ∃ page, fetch (some (at_ s)) = .ok page ∧
    IsSegment rows stop at_ items next s page

variable {rows : List α} {stop : ℕ → ℕ} {at_ : ℕ → C} {items : P → List α} {next : P → Option C}
  {fetch : Option C → Except E P}

/-- A segment that reaches the end is the last page. -/
theorem follow_last {s : ℕ} {cursor : Option C} {page : P} (hend : rows.length ≤ stop s)
    (hfetch : fetch cursor = .ok page) (hsegment : IsSegment rows stop at_ items next s page) :
    follow next fetch 1 cursor = some [page] ∧ items page = rows.drop s := by
  constructor
  · rw [follow, hfetch]
    simp [hsegment.next, Nat.not_lt.mpr hend]
  · rw [hsegment.items, List.take_of_length_le]
    rw [List.length_drop]
    omega

/-- Every page of the walk was fetched. -/
theorem fetch_of_mem_follow {page : P} : ∀ {fuel : ℕ} {cursor : Option C} {pages : List P},
    follow next fetch fuel cursor = some pages → page ∈ pages → ∃ c, fetch c = .ok page
  | 0, _, _, h, _ => nomatch h
  | fuel + 1, cursor, pages, h, hpage => by
    rw [follow] at h
    split at h
    · cases h
    · next first hfetch =>
      split at h
      · obtain rfl := Option.some.inj h
        obtain rfl := List.mem_singleton.mp hpage
        exact ⟨cursor, hfetch⟩
      · obtain ⟨rest, hrest, rfl⟩ := Option.map_eq_some_iff.mp h
        rcases List.mem_cons.mp hpage with rfl | hpage
        · exact ⟨cursor, hfetch⟩
        · exact fetch_of_mem_follow hrest hpage

variable (h : Serves rows stop at_ items next fetch)

include h

/-- An empty segment before the end is fetched for ever. -/
theorem follow_stuck {s : ℕ} (hs : s < rows.length)
    (hstop : stop s = s) : ∀ fuel, follow next fetch fuel (some (at_ s)) = none
  | 0 => rfl
  | fuel + 1 => by
    obtain ⟨page, hfetch, hsegment⟩ := h.rest s hs
    have hnext : next page = some (at_ s) := by
      rw [hsegment.next, hstop, if_pos hs]
    rw [follow, hfetch]
    simp only [hnext]
    rw [follow_stuck hs hstop fuel]
    rfl

/-- A page that is reached is a segment that starts where another one ends. -/
theorem Reached.isSegment {page : P} (hpage : Reached next fetch page) :
    ∃ s, IsSegment rows stop at_ items next s page ∧ (s = 0 ∨ s < rows.length ∧ ∃ r, s = stop r) := by
  induction hpage with
  | first hfetch =>
    obtain ⟨page', hfetch', hsegment⟩ := h.first
    obtain rfl := Except.ok.inj (hfetch.symm.trans hfetch')
    exact ⟨0, hsegment, Or.inl rfl⟩
  | @step page page' cursor _ hnext hfetch ih =>
    obtain ⟨r, hsegment, -⟩ := ih
    rw [hsegment.next] at hnext
    split_ifs at hnext with hlt
    obtain rfl := Option.some.inj hnext
    obtain ⟨page'', hfetch', hsegment'⟩ := h.rest (stop r) hlt
    obtain rfl := Except.ok.inj (hfetch.symm.trans hfetch')
    exact ⟨stop r, hsegment', Or.inr ⟨hlt, r, rfl⟩⟩

variable (hle : ∀ s ≤ rows.length, s ≤ stop s) (hprogress : ∀ s < rows.length, s < stop s)

include hle hprogress

/-- From a segment on, the rows that are left are visited once. -/
theorem exists_follow_from :
    ∀ {left s : ℕ} {cursor : Option C} {page : P}, s ≤ rows.length → rows.length - s ≤ left →
      fetch cursor = .ok page → IsSegment rows stop at_ items next s page →
      ∃ fuel pages, follow next fetch fuel cursor = some pages ∧
        pages.flatMap items = rows.drop s := by
  intro left
  induction left with
  | zero =>
    intro s cursor page hs hleft hfetch hsegment
    have hend := hle s hs
    obtain ⟨hfollow, hitems⟩ := follow_last (by omega) hfetch hsegment
    exact ⟨1, [page], hfollow, by simp [hitems]⟩
  | succ left ih =>
    intro s cursor page hs hleft hfetch hsegment
    by_cases hend : stop s < rows.length
    · obtain ⟨page', hfetch', hsegment'⟩ := h.rest (stop s) hend
      have hlt : s < stop s := hprogress s (lt_of_le_of_lt (hle s hs) hend)
      obtain ⟨fuel, pages, hpages, hrows⟩ := ih (Nat.le_of_lt hend) (by omega) hfetch' hsegment'
      refine ⟨fuel + 1, page :: pages, ?_, ?_⟩
      · rw [follow, hfetch]
        simp [hsegment.next, hend, hpages]
      · have hdrop : rows.drop (stop s) = (rows.drop s).drop (stop s - s) := by
          rw [List.drop_drop]
          congr 1
          omega
        rw [List.flatMap_cons, hrows, hsegment.items, hdrop, List.take_append_drop]
    · obtain ⟨hfollow, hitems⟩ := follow_last (by omega) hfetch hsegment
      exact ⟨1, [page], hfollow, by simp [hitems]⟩

/-- Following the cursors ends, and the pages are the rows in order. -/
theorem exists_follow :
    ∃ fuel pages, follow next fetch fuel none = some pages ∧ pages.flatMap items = rows := by
  obtain ⟨page, hfetch, hsegment⟩ := h.first
  exact exists_follow_from h hle hprogress (Nat.zero_le _) le_rfl hfetch hsegment

end Paging
