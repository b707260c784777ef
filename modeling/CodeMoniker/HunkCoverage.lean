import CodeMoniker.DiffReports

/-!
# Coverage of hunks with bounded line numbers

The lines of hunks and explained spans are 32-bit numbers, and the number after the largest one is
that number again (`saturatingSucc`). The merge does not notice (`mergedSpansU32_eq`). The loop over a
hunk does: its cursor cannot step past the last line, so a hunk that ends there always leaves that
line, explained or not (`spanned_maxLine`). What a hunk leaves is otherwise exactly what no span
explains (`hunkCoverageU32_exact_iff`).
-/

namespace CodeMoniker

open LineSpans

/-- `u32::MAX`. -/
def maxLine : ℕ := 2 ^ 32 - 1

/-- `saturating_add(1)`. -/
def saturatingSucc (n : ℕ) : ℕ := min (n + 1) maxLine

/-! ## The loops -/

def mergeFromU32 : ℕ × ℕ → List (ℕ × ℕ) → List (ℕ × ℕ)
  | last, [] => [last]
  | last, s :: spans =>
    if s.1 ≤ saturatingSucc last.2 then mergeFromU32 (last.1, max last.2 s.2) spans
    else last :: mergeFromU32 s spans

def mergedSpansU32 (spans : List (ℕ × ℕ)) : List (ℕ × ℕ) :=
  match StableSort.stableSort (fun s : ℕ × ℕ => toLex s) spans with
  | [] => []
  | s :: spans => mergeFromU32 s spans

def residualFromU32 (stop : ℕ) : ℕ → List (ℕ × ℕ) → List (ℕ × ℕ)
  | cursor, [] => if cursor ≤ stop then [(cursor, stop)] else []
  | cursor, s :: covered =>
    if s.2 < cursor ∨ stop < s.1 then residualFromU32 stop cursor covered
    else
      (if cursor < s.1 then [(cursor, s.1 - 1)] else []) ++
        if stop < max cursor (saturatingSucc s.2) then []
        else residualFromU32 stop (max cursor (saturatingSucc s.2)) covered

/-- The spans that are left of one hunk. -/
def hunkResidual (explained : List (ℕ × ℕ)) (hunk : ℕ × ℕ) : List (ℕ × ℕ) :=
  residualFromU32 hunk.2 hunk.1 (mergedSpansU32 explained)

def residualSpansU32 (hunks explained : List (ℕ × ℕ)) : List (ℕ × ℕ) :=
  hunks.flatMap (hunkResidual explained)

structure CoverageInputs where
  oldHunks : List (ℕ × ℕ)
  newHunks : List (ℕ × ℕ)
  oldExplained : List (ℕ × ℕ)
  newExplained : List (ℕ × ℕ)

def hunkCoverageU32 (inputs : CoverageInputs) : HunkCoverage where
  oldResidual := residualSpansU32 inputs.oldHunks inputs.oldExplained
  newResidual := residualSpansU32 inputs.newHunks inputs.newExplained

/-! ## Against the unbounded loops -/

/-- Spans of 32-bit lines that hold a line. -/
def InRange (spans : List (ℕ × ℕ)) : Prop := ∀ s ∈ spans, s.1 ≤ s.2 ∧ s.2 ≤ maxLine

theorem mergeFromU32_eq : ∀ {last : ℕ × ℕ} {spans : List (ℕ × ℕ)}, InRange spans →
    mergeFromU32 last spans = mergeFrom last spans
  | _, [], _ => rfl
  | last, s :: spans, h => by
    obtain ⟨hle, hmax⟩ := h s List.mem_cons_self
    have hrest : InRange spans := fun t ht => h t (List.mem_cons_of_mem s ht)
    have hmerge : s.1 ≤ saturatingSucc last.2 ↔ s.1 ≤ last.2 + 1 := by
      rw [saturatingSucc, le_min_iff]
      omega
    rw [mergeFromU32, mergeFrom, mergeFromU32_eq hrest, mergeFromU32_eq hrest]
    simp only [hmerge]

theorem mergedSpansU32_eq {spans : List (ℕ × ℕ)} (h : InRange spans) :
    mergedSpansU32 spans = mergedSpans spans := by
  have hsorted : InRange (StableSort.stableSort (fun s : ℕ × ℕ => toLex s) spans) :=
    fun s hs => h s (StableSort.mem_stableSort.mp hs)
  unfold mergedSpansU32 mergedSpans
  generalize StableSort.stableSort (fun s : ℕ × ℕ => toLex s) spans = sorted at hsorted ⊢
  rcases sorted with _ | ⟨s, rest⟩
  · rfl
  · exact mergeFromU32_eq fun t ht => hsorted t (List.mem_cons_of_mem s ht)

theorem mergedSpansU32_spec {explained : List (ℕ × ℕ)} (h : InRange explained) :
    Separated (mergedSpansU32 explained) ∧
      ∀ n, Spanned (mergedSpansU32 explained) n ↔ Spanned explained n := by
  rw [mergedSpansU32_eq h]
  exact mergedSpans_spec fun s hs => (h s hs).1

/-- While the last line is not at stake, the cursor does not stick. -/
theorem residualFromU32_eq {stop : ℕ} (hstop : stop ≤ maxLine) :
    ∀ {cursor : ℕ} {covered : List (ℕ × ℕ)}, (∀ s ∈ covered, stop < maxLine ∨ s.2 < maxLine) →
      residualFromU32 stop cursor covered = residualFrom stop cursor covered
  | _, [], _ => rfl
  | cursor, s :: covered, h => by
    have hrest : ∀ t ∈ covered, stop < maxLine ∨ t.2 < maxLine :=
      fun t ht => h t (List.mem_cons_of_mem s ht)
    rw [residualFromU32, residualFrom, residualFromU32_eq hstop hrest]
    rcases Nat.lt_or_ge s.2 maxLine with hlt | hge
    · have hsucc : saturatingSucc s.2 = s.2 + 1 := min_eq_left hlt
      rw [hsucc, residualFromU32_eq hstop hrest]
    · -- both cursors are past a hunk that ends before the last line
      have hlast : stop < maxLine := (h s List.mem_cons_self).resolve_right (not_lt.mpr hge)
      have hsucc : saturatingSucc s.2 = maxLine := min_eq_right (by omega)
      have hpast : stop < max cursor (saturatingSucc s.2) := by
        rw [hsucc]
        exact hlast.trans_le (le_max_right _ _)
      have hpast' : stop < max cursor (s.2 + 1) := by
        have hle := le_max_right cursor (s.2 + 1)
        omega
      rw [if_pos hpast, if_pos hpast']

/-- A hunk that ends with the last line leaves that line. -/
theorem spanned_maxLine : ∀ {cursor : ℕ} {covered : List (ℕ × ℕ)}, cursor ≤ maxLine →
    Spanned (residualFromU32 maxLine cursor covered) maxLine
  | cursor, [], h => by
    rw [residualFromU32, if_pos h, spanned_cons]
    exact Or.inl ⟨h, le_rfl⟩
  | cursor, s :: covered, h => by
    have hmax : max cursor (saturatingSucc s.2) ≤ maxLine := max_le h (min_le_right _ _)
    rw [residualFromU32]
    split_ifs with hskip hgap hpast hpast
    · exact spanned_maxLine h
    · omega
    · exact spanned_append.mpr (Or.inr (spanned_maxLine hmax))
    · omega
    · exact spanned_maxLine hmax

/-! ## What is left -/

/-- A hunk leaves its lines that no span explains, in spans that hold a line, go up and do not meet. -/
structure LeavesExactly (explained : List (ℕ × ℕ)) (hunk : ℕ × ℕ) : Prop where
  lines : ∀ n, Spanned (hunkResidual explained hunk) n ↔
    hunk.1 ≤ n ∧ n ≤ hunk.2 ∧ ¬Spanned explained n
  nonempty : ∀ s ∈ hunkResidual explained hunk, s.1 ≤ s.2
  increasing : (hunkResidual explained hunk).Pairwise fun s t => s.2 < t.1

theorem leavesExactly_iff {explained : List (ℕ × ℕ)} (h : InRange explained) {hunk : ℕ × ℕ}
    (hhunk : hunk.1 ≤ hunk.2 ∧ hunk.2 ≤ maxLine) :
    LeavesExactly explained hunk ↔ (hunk.2 = maxLine → ¬Spanned explained maxLine) := by
  obtain ⟨hsep, hspanned⟩ := mergedSpansU32_spec h
  constructor
  · intro hexact hlast hexplained
    have hleft : Spanned (hunkResidual explained hunk) maxLine := by
      rw [hunkResidual, hlast]
      exact spanned_maxLine (hhunk.1.trans hhunk.2)
    exact ((hexact.lines maxLine).mp hleft).2.2 hexplained
  · intro hlast
    have hcovered : ∀ s ∈ mergedSpansU32 explained, hunk.2 < maxLine ∨ s.2 < maxLine := by
      intro s hs
      by_contra hnot
      have hle := hsep.le s hs
      refine hlast (by omega) ((hspanned maxLine).mp ?_)
      -- a merged span ends where some span ends
      obtain ⟨t, ht, -, hend⟩ := (hspanned s.2).mp ⟨s, hs, hle, le_rfl⟩
      have hmax := (h t ht).2
      exact ⟨s, hs, by omega, by omega⟩
    have heq := @residualFromU32_eq _ hhunk.2 hunk.1 _ hcovered
    obtain ⟨hres, -, hlines⟩ := @residualFrom_spec hunk.2 hunk.1 _ hsep
    refine ⟨fun n => ?_, ?_, ?_⟩
    · rw [hunkResidual, heq, hlines, hspanned]
    · rw [hunkResidual, heq]
      exact hres.le
    · rw [hunkResidual, heq]
      exact hres.gap.imp fun hgap => by omega

theorem residualSpansU32_eq_nil {hunks explained : List (ℕ × ℕ)}
    (h : ∀ hunk ∈ hunks, LeavesExactly explained hunk) : residualSpansU32 hunks explained = [] ↔
      ∀ hunk ∈ hunks, ∀ n, hunk.1 ≤ n → n ≤ hunk.2 → Spanned explained n := by
  rw [residualSpansU32, List.flatMap_eq_nil_iff]
  refine forall₂_congr fun hunk hhunk => ?_
  have hexact := h hunk hhunk
  constructor
  · intro hnil n hle hle'
    by_contra hnot
    have hleft := (hexact.lines n).mpr ⟨hle, hle', hnot⟩
    rw [hnil] at hleft
    exact spanned_nil n hleft
  · intro hall
    rw [List.eq_nil_iff_forall_not_mem]
    intro s hs
    have hle := hexact.nonempty s hs
    obtain ⟨hfrom, hto, hnot⟩ := (hexact.lines s.1).mp ⟨s, hs, le_rfl, hle⟩
    exact hnot (hall s.1 hfrom hto)

namespace CoverageInputs

structure Valid (inputs : CoverageInputs) : Prop where
  oldHunks : InRange inputs.oldHunks
  newHunks : InRange inputs.newHunks
  oldExplained : InRange inputs.oldExplained
  newExplained : InRange inputs.newExplained

/-- The coverage is the difference of sets of lines, and says whether all lines are explained. -/
structure Exact (inputs : CoverageInputs) : Prop where
  old : ∀ hunk ∈ inputs.oldHunks, LeavesExactly inputs.oldExplained hunk
  new : ∀ hunk ∈ inputs.newHunks, LeavesExactly inputs.newExplained hunk
  explained : (hunkCoverageU32 inputs).explained = true ↔
    (∀ hunk ∈ inputs.oldHunks, ∀ n, hunk.1 ≤ n → n ≤ hunk.2 → Spanned inputs.oldExplained n) ∧
      ∀ hunk ∈ inputs.newHunks, ∀ n, hunk.1 ≤ n → n ≤ hunk.2 → Spanned inputs.newExplained n

/-- No hunk that ends with the last line there is has that line explained. -/
def LastLineFree (hunks explained : List (ℕ × ℕ)) : Prop :=
  ∀ hunk ∈ hunks, hunk.2 = maxLine → ¬Spanned explained maxLine

end CoverageInputs

theorem hunkCoverageU32_exact_iff (inputs : CoverageInputs) (h : inputs.Valid) :
    inputs.Exact ↔ CoverageInputs.LastLineFree inputs.oldHunks inputs.oldExplained ∧
      CoverageInputs.LastLineFree inputs.newHunks inputs.newExplained := by
  constructor
  · intro hexact
    exact ⟨fun hunk hhunk => (leavesExactly_iff h.oldExplained (h.oldHunks hunk hhunk)).mp
        (hexact.old hunk hhunk),
      fun hunk hhunk => (leavesExactly_iff h.newExplained (h.newHunks hunk hhunk)).mp
        (hexact.new hunk hhunk)⟩
  · rintro ⟨hold, hnew⟩
    have hold' : ∀ hunk ∈ inputs.oldHunks, LeavesExactly inputs.oldExplained hunk :=
      fun hunk hhunk => (leavesExactly_iff h.oldExplained (h.oldHunks hunk hhunk)).mpr
        (hold hunk hhunk)
    have hnew' : ∀ hunk ∈ inputs.newHunks, LeavesExactly inputs.newExplained hunk :=
      fun hunk hhunk => (leavesExactly_iff h.newExplained (h.newHunks hunk hhunk)).mpr
        (hnew hunk hhunk)
    refine ⟨hold', hnew', ?_⟩
    rw [HunkCoverage.explained, Bool.and_eq_true, decide_eq_true_eq, decide_eq_true_eq,
      hunkCoverageU32, residualSpansU32_eq_nil hold', residualSpansU32_eq_nil hnew']

/-- A file with hunks on both sides whose lines are all explained. -/
def explainedInputs : CoverageInputs := ⟨[(5, 6)], [(10, 20)], [(1, 8)], [(10, 14), (15, 20)]⟩

theorem hunkCoverageU32_explainedInputs : explainedInputs.Valid ∧ explainedInputs.Exact := by
  have hvalid : explainedInputs.Valid := by
    refine ⟨?_, ?_, ?_, ?_⟩
    all_goals simp [InRange, explainedInputs, maxLine]
  refine ⟨hvalid, (hunkCoverageU32_exact_iff explainedInputs hvalid).mpr ⟨?_, ?_⟩⟩
  all_goals simp [CoverageInputs.LastLineFree, explainedInputs, maxLine]

/-- One hunk of one line, the last one, which is explained. -/
theorem last_line_not_explained : ¬∀ inputs : CoverageInputs, inputs.Valid → inputs.Exact := by
  intro hall
  have hvalid : CoverageInputs.Valid ⟨[], [(maxLine, maxLine)], [], [(maxLine, maxLine)]⟩ :=
    ⟨by simp [InRange], by simp [InRange], by simp [InRange], by simp [InRange]⟩
  have hlines := ((hall _ hvalid).new _ List.mem_cons_self).lines maxLine
  have hleft : Spanned (hunkResidual [(maxLine, maxLine)] (maxLine, maxLine)) maxLine :=
    spanned_maxLine le_rfl
  exact (hlines.mp hleft).2.2 (by simp)

end CodeMoniker
