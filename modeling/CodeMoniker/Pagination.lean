import CodeMoniker.Paging
import CodeMoniker.QueryValues

/-!
# Paged responses

A response holds the rows from the offset of the cursor on, at most as many as the limit, and
the cursor of the next page when rows are left. A cursor is refused by another generation.

With a limit of at least one, following the cursors visits every row once. The limit 0 is not
refused : its page is empty and its cursor leads back to it. The cursor of a generation is
printed as it is parsed, and a cursor without a generation is not parsed (`follow_pages_iff`).
-/

namespace CodeMoniker.Query

structure QueryError where
  code : String
  message : String
  deriving DecidableEq, Repr

structure Paged (T : Type) where
  items : List T
  total : ℕ
  nextCursor : Option QueryCursor
  deriving DecidableEq, Repr

def validatePageCursor (page : Page) (generation : Option ℕ) : Except QueryError Unit :=
  match page.cursor with
  | none => .ok ()
  | some cursor =>
    if cursor.generation ≠ generation then
      .error ⟨"cursor_generation_mismatch",
        "query cursor belongs to a different workspace generation"⟩
    else .ok ()

/-- `saturating_add` of `usize`. -/
def saturatingAdd (a b : ℕ) : ℕ := min (a + b) maxU64

def pageRows {T : Type} (rows : List T) (page : Page) (generation : Option ℕ) :
    Except QueryError (Paged T) := do
  validatePageCursor page generation
  let total := rows.length
  let start := min ((page.cursor.map (·.offset)).getD 0) total
  let end_ := min (saturatingAdd start page.limit) total
  let nextCursor := if end_ < total then some ⟨end_, generation⟩ else none
  return ⟨(rows.drop start).take (end_ - start), total, nextCursor⟩

/-! ## Following the cursors -/

section Follow

variable {T : Type} (rows : List T) (limit : ℕ) (generation : Option ℕ)

/-- The page of a cursor. -/
def fetchPage (cursor : Option QueryCursor) : Except QueryError (Paged T) :=
  pageRows rows ⟨cursor, limit⟩ generation

/-- Where a page that starts at `s` stops. -/
def pageStop (s : ℕ) : ℕ := min (saturatingAdd s limit) rows.length

/-- What a client sees that follows the cursors of one generation. -/
structure VisitsOnce : Prop where
  pages : ∃ fuel pages,
    Paging.follow (·.nextCursor) (fetchPage rows limit generation) fuel none = some pages ∧
      pages.flatMap (·.items) = rows ∧ ∀ page ∈ pages, page.total = rows.length
  printed : ∀ page, Paging.Reached (·.nextCursor) (fetchPage rows limit generation) page →
    ∀ cursor, page.nextCursor = some cursor → parseCursor (formatCursor cursor) = .ok cursor
  refused : ∀ cursor : QueryCursor, cursor.generation ≠ generation →
    ∃ e, fetchPage rows limit generation (some cursor) = .error e

variable {rows limit generation}

theorem total_of_fetchPage {cursor : Option QueryCursor} {page : Paged T}
    (h : fetchPage rows limit generation cursor = .ok page) : page.total = rows.length := by
  unfold fetchPage pageRows at h
  cases hvalid : validatePageCursor ⟨cursor, limit⟩ generation with
  | error e =>
    rw [hvalid] at h
    cases h
  | ok _ =>
    rw [hvalid] at h
    obtain rfl := Except.ok.inj h
    rfl

theorem serves : Paging.Serves rows (pageStop rows limit) (⟨·, generation⟩)
    (fun page : Paged T => page.items) (·.nextCursor) (fetchPage rows limit generation) where
  first := by
    refine ⟨_, rfl, ?_, rfl⟩
    simp [pageStop]
  rest s hs := by
    have hvalid : validatePageCursor ⟨some ⟨s, generation⟩, limit⟩ generation = .ok () := by
      simp [validatePageCursor]
    have hstart : min s rows.length = s := by omega
    have hfetch : fetchPage rows limit generation (some ⟨s, generation⟩) =
        .ok ⟨(rows.drop s).take (pageStop rows limit s - s), rows.length,
          if pageStop rows limit s < rows.length then some ⟨pageStop rows limit s, generation⟩
          else none⟩ := by
      rw [fetchPage, pageRows, hvalid]
      simp only [Option.map_some, Option.getD_some, hstart]
      rfl
    exact ⟨_, hfetch, rfl, rfl⟩

theorem le_pageStop {s : ℕ} (hs : s ≤ rows.length) (hrows : rows.length ≤ maxU64) :
    s ≤ pageStop rows limit s := by
  unfold pageStop saturatingAdd
  omega

theorem fetchPage_refused {cursor : QueryCursor} (h : cursor.generation ≠ generation) :
    ∃ e, fetchPage rows limit generation (some cursor) = .error e := by
  refine ⟨⟨"cursor_generation_mismatch",
    "query cursor belongs to a different workspace generation"⟩, ?_⟩
  have hvalid : validatePageCursor ⟨some cursor, limit⟩ generation =
      .error ⟨"cursor_generation_mismatch",
        "query cursor belongs to a different workspace generation"⟩ := if_pos h
  rw [fetchPage, pageRows, hvalid]
  rfl

/-- A page of no rows leads back to itself. -/
theorem VisitsOnce.limit_pos (h : VisitsOnce rows limit generation) : 1 ≤ limit ∨ rows = [] := by
  by_contra hnot
  obtain ⟨hzero, hnonempty⟩ := not_or.mp hnot
  have hlength : 0 < rows.length := List.length_pos_iff.mpr hnonempty
  have hstop : pageStop rows limit 0 = 0 := by
    unfold pageStop saturatingAdd
    omega
  have hstuck := Paging.follow_stuck (@serves T rows limit generation) hlength hstop
  obtain ⟨fuel, pages, hpages, -⟩ := h.pages
  cases fuel with
  | zero => cases hpages
  | succ fuel =>
    obtain ⟨page, hfetch, hsegment⟩ := (@serves T rows limit generation).first
    have hnext : page.nextCursor = some ⟨0, generation⟩ := by
      rw [hsegment.next, hstop, if_pos hlength]
    rw [Paging.follow, hfetch] at hpages
    simp [hnext, hstuck fuel] at hpages

/-- The cursor of a second page is printed with its generation. -/
theorem VisitsOnce.generation_isSome (h : VisitsOnce rows limit generation)
    (hrows : rows.length ≤ maxU64) (hgeneration : ∀ g ∈ generation, g ≤ maxU64) :
    generation.isSome ∨ rows.length ≤ limit := by
  by_contra hnot
  obtain ⟨hnone, hlong⟩ := not_or.mp hnot
  have hlt : pageStop rows limit 0 < rows.length := by
    unfold pageStop saturatingAdd
    omega
  obtain ⟨page, hfetch, hsegment⟩ := (@serves T rows limit generation).first
  have hnext : page.nextCursor = some ⟨pageStop rows limit 0, generation⟩ := by
    rw [hsegment.next, if_pos hlt]
  have hparsed := h.printed page (.first hfetch) _ hnext
  exact hnone ((parseCursor_formatCursor (by simp only; omega) hgeneration).mp hparsed)

/-- Following the cursors visits every row once and each printed cursor is parsed, exactly when
the limit is not 0 and there is a generation, or there is no second page to fetch. -/
theorem follow_pages_iff (hrows : rows.length ≤ maxU64)
    (hgeneration : ∀ g ∈ generation, g ≤ maxU64) : VisitsOnce rows limit generation ↔
      (1 ≤ limit ∨ rows = []) ∧ (generation.isSome ∨ rows.length ≤ limit) := by
  have hserves := @serves T rows limit generation
  constructor
  · exact fun h => ⟨h.limit_pos, h.generation_isSome hrows hgeneration⟩
  · rintro ⟨hlimit', hsome⟩
    refine ⟨?_, ?_, fun cursor => fetchPage_refused⟩
    · obtain ⟨fuel, pages, hpages, hitems⟩ := Paging.exists_follow hserves
        (fun s hs => le_pageStop hs hrows) fun s hs => by
          have hpos : 1 ≤ limit := hlimit'.resolve_right fun hnil => by simp [hnil] at hs
          unfold pageStop saturatingAdd
          omega
      refine ⟨fuel, pages, hpages, hitems, fun page hpage => ?_⟩
      obtain ⟨cursor, hfetch⟩ := Paging.fetch_of_mem_follow hpages hpage
      exact total_of_fetchPage hfetch
    · intro page hpage cursor hcursor
      obtain ⟨s, hsegment, -⟩ := hpage.isSegment hserves
      have hnext := hsegment.next
      rw [hcursor] at hnext
      split_ifs at hnext with hlt
      obtain rfl := Option.some.inj hnext
      refine (parseCursor_formatCursor (by simp only; omega) hgeneration).mpr ?_
      refine hsome.resolve_right fun hfits => ?_
      unfold pageStop saturatingAdd at hlt
      omega

end Follow

theorem follow_pages_two_rows : VisitsOnce ["a", "b"] 1 (some 7) :=
  (follow_pages_iff (by decide) fun _ h => Option.some.inj h ▸ by decide).mpr
    ⟨Or.inl (by decide), Or.inl rfl⟩

/-- The limit 0 is never done, and the second page of no generation cannot be asked for. -/
theorem follow_pages_fails : ¬VisitsOnce ["a", "b"] 0 (some 7) ∧ ¬VisitsOnce ["a", "b"] 1 none :=
  ⟨fun h => absurd h.limit_pos (by decide),
    fun h => absurd (h.generation_isSome (by decide) fun _ h => nomatch h) (by decide)⟩

end CodeMoniker.Query
