import CodeMoniker.StableSort

/-!
# Spans of numbers

Closed spans `(start, end)`. Overlapping and adjacent spans are merged (`mergedSpans`), and what
a list of spans leaves of another one are its maximal uncovered runs (`residualSpans`). Spans with
a gap between any two are determined by the numbers they hold (`Separated.ext`), so the residue of
a span is determined by the numbers it leaves uncovered (`residualSpans_eq_iff`).
-/

namespace LineSpans

open List

variable (spans : List (ℕ × ℕ))

/-- A span holds the number. -/
def Spanned (n : ℕ) : Prop := ∃ s ∈ spans, s.1 ≤ n ∧ n ≤ s.2

instance (spans : List (ℕ × ℕ)) (n : ℕ) : Decidable (Spanned spans n) := by
  unfold Spanned
  infer_instance

@[simp] theorem spanned_nil (n : ℕ) : ¬Spanned [] n := by simp [Spanned]

@[simp] theorem spanned_cons {s : ℕ × ℕ} {spans : List (ℕ × ℕ)} {n : ℕ} :
    Spanned (s :: spans) n ↔ (s.1 ≤ n ∧ n ≤ s.2) ∨ Spanned spans n := by simp [Spanned]

@[simp] theorem spanned_append {spans spans' : List (ℕ × ℕ)} {n : ℕ} :
    Spanned (spans ++ spans') n ↔ Spanned spans n ∨ Spanned spans' n := by
  simp [Spanned, or_and_right, exists_or]

/-! ## The hull of two spans -/

def hull (s t : ℕ × ℕ) : ℕ × ℕ := (min s.1 t.1, max s.2 t.2)

/-- The number lies in the gap between the spans. -/
def Between (s t : ℕ × ℕ) (n : ℕ) : Prop := s.2 < n ∧ n < t.1 ∨ t.2 < n ∧ n < s.1

/-- The hull holds the numbers of both spans and those in the gap. -/
theorem mem_hull_iff {s t : ℕ × ℕ} (hs : s.1 ≤ s.2) (ht : t.1 ≤ t.2) {n : ℕ} :
    (hull s t).1 ≤ n ∧ n ≤ (hull s t).2 ↔
      (s.1 ≤ n ∧ n ≤ s.2) ∨ (t.1 ≤ n ∧ n ≤ t.2) ∨ Between s t n := by
  unfold hull Between
  omega

/-! ## Separated spans -/

/-- Spans that hold a number, in order and with a gap between two. -/
structure Separated (spans : List (ℕ × ℕ)) : Prop where
  le : ∀ s ∈ spans, s.1 ≤ s.2
  gap : spans.Pairwise fun s t => s.2 + 1 < t.1

theorem separated_nil : Separated [] := ⟨by simp, .nil⟩

theorem separated_cons {s : ℕ × ℕ} {spans : List (ℕ × ℕ)} :
    Separated (s :: spans) ↔ s.1 ≤ s.2 ∧ (∀ t ∈ spans, s.2 + 1 < t.1) ∧ Separated spans := by
  constructor
  · intro ⟨hle, hgap⟩
    obtain ⟨hs, hspans⟩ := pairwise_cons.mp hgap
    exact ⟨hle s (.head _), hs, fun t ht => hle t (.tail s ht), hspans⟩
  · intro ⟨hle, hs, hspans⟩
    refine ⟨fun t ht => ?_, pairwise_cons.mpr ⟨hs, hspans.gap⟩⟩
    rcases mem_cons.mp ht with rfl | ht
    · exact hle
    · exact hspans.le t ht

/-- Separated spans that hold the same numbers are equal. -/
theorem Separated.ext : ∀ {l m : List (ℕ × ℕ)}, Separated l → Separated m →
    (∀ n, Spanned l n ↔ Spanned m n) → l = m
  | [], [], _, _, _ => rfl
  | [], t :: m, _, hm, h => by
    have ht := (separated_cons.mp hm).1
    have := (h t.1).mpr (spanned_cons.mpr (.inl ⟨le_rfl, ht⟩))
    simp at this
  | s :: l, [], hl, _, h => by
    have hs := (separated_cons.mp hl).1
    have := (h s.1).mp (spanned_cons.mpr (.inl ⟨le_rfl, hs⟩))
    simp at this
  | (a, b) :: l, (c, d) :: m, hl, hm, h => by
    obtain ⟨hab, hlgap, hl'⟩ := separated_cons.mp hl
    obtain ⟨hcd, hmgap, hm'⟩ := separated_cons.mp hm
    simp only [spanned_cons] at h
    -- The rest of a list starts two numbers after its first span.
    have hlater : ∀ {spans : List (ℕ × ℕ)} {e n : ℕ}, (∀ t ∈ spans, e + 1 < t.1) →
        Spanned spans n → e + 1 < n := fun hgap ⟨t, ht, hn, _⟩ => (hgap t ht).trans_le hn
    have hac : a = c := by
      rcases (h a).mp (.inl ⟨le_rfl, hab⟩) with hin | hin <;>
        rcases (h c).mpr (.inl ⟨le_rfl, hcd⟩) with hin' | hin'
      · omega
      · have := hlater hlgap hin'
        omega
      · have := hlater hmgap hin
        omega
      · have := hlater hmgap hin
        have := hlater hlgap hin'
        omega
    subst hac
    have hbd : b = d := by
      rcases lt_trichotomy b d with hlt | heq | hlt
      · rcases (h (b + 1)).mpr (.inl ⟨by omega, hlt⟩) with hin | hin
        · omega
        · exact absurd (hlater hlgap hin) (lt_irrefl _)
      · exact heq
      · rcases (h (d + 1)).mp (.inl ⟨by omega, hlt⟩) with hin | hin
        · omega
        · exact absurd (hlater hmgap hin) (lt_irrefl _)
    subst hbd
    refine congrArg ((a, b) :: ·) (hl'.ext hm' fun n => ?_)
    constructor
    · intro hn
      have := hlater hlgap hn
      rcases (h n).mp (.inr hn) with hin | hin
      · omega
      · exact hin
    · intro hn
      have := hlater hmgap hn
      rcases (h n).mpr (.inr hn) with hin | hin
      · omega
      · exact hin

/-! ## Merging -/

/-- The loop over the sorted spans, with the span pushed last. -/
def mergeFrom : ℕ × ℕ → List (ℕ × ℕ) → List (ℕ × ℕ)
  | last, [] => [last]
  | last, s :: spans =>
    if s.1 ≤ last.2 + 1 then mergeFrom (last.1, max last.2 s.2) spans
    else last :: mergeFrom s spans

def mergedSpans : List (ℕ × ℕ) :=
  match StableSort.stableSort (fun s : ℕ × ℕ => toLex s) spans with
  | [] => []
  | s :: spans => mergeFrom s spans

theorem mergeFrom_spec : ∀ {last : ℕ × ℕ} {spans : List (ℕ × ℕ)},
    last.1 ≤ last.2 → (∀ s ∈ spans, s.1 ≤ s.2 ∧ last.1 ≤ s.1) →
      spans.Pairwise (fun s t => s.1 ≤ t.1) →
      (Separated (mergeFrom last spans) ∧ ∀ t ∈ mergeFrom last spans, last.1 ≤ t.1) ∧
        ∀ n, Spanned (mergeFrom last spans) n ↔ Spanned (last :: spans) n
  | last, [], hlast, _, _ => by
    unfold mergeFrom
    exact ⟨⟨separated_cons.mpr ⟨hlast, by simp, separated_nil⟩, by simp⟩, fun _ => .rfl⟩
  | last, s :: spans, hlast, hspans, hsorted => by
    obtain ⟨hs, hsorted⟩ := pairwise_cons.mp hsorted
    obtain ⟨hsle, hle⟩ := hspans s (.head _)
    unfold mergeFrom
    split_ifs with hmerge
    · have hmax := le_max_left last.2 s.2
      obtain ⟨hsep, hspanned⟩ := @mergeFrom_spec (last.1, max last.2 s.2) spans (hlast.trans hmax)
        (fun t ht => hspans t (.tail s ht)) hsorted
      refine ⟨hsep, fun n => ?_⟩
      rw [hspanned]
      simp only [spanned_cons, ← or_assoc]
      refine or_congr_left ?_
      rcases le_total last.2 s.2 with h | h
      · rw [max_eq_right h]
        omega
      · rw [max_eq_left h]
        omega
    · obtain ⟨⟨hsep, hfrom⟩, hspanned⟩ := mergeFrom_spec hsle
        (fun t ht => ⟨(hspans t (.tail s ht)).1, hs t ht⟩) hsorted
      refine ⟨⟨separated_cons.mpr ⟨hlast, fun t ht => ?_, hsep⟩, fun t ht => ?_⟩, fun n => ?_⟩
      · have := hfrom t ht
        omega
      · rcases mem_cons.mp ht with rfl | ht
        · exact le_rfl
        · exact hle.trans (hfrom t ht)
      · rw [spanned_cons, hspanned, ← spanned_cons]

theorem mergedSpans_spec {spans : List (ℕ × ℕ)} (h : ∀ s ∈ spans, s.1 ≤ s.2) :
    Separated (mergedSpans spans) ∧ ∀ n, Spanned (mergedSpans spans) n ↔ Spanned spans n := by
  have hmem : ∀ s, s ∈ StableSort.stableSort (fun s : ℕ × ℕ => toLex s) spans ↔ s ∈ spans :=
    fun s => StableSort.mem_stableSort
  have hsorted : (StableSort.stableSort (fun s : ℕ × ℕ => toLex s) spans).Pairwise
      fun s t => s.1 ≤ t.1 := by
    refine StableSort.sorted_stableSort.imp fun {s t} hst => ?_
    rcases Prod.Lex.toLex_le_toLex.mp hst with hlt | ⟨heq, -⟩
    · exact hlt.le
    · exact heq.le
  unfold mergedSpans
  have hspanned : ∀ n, Spanned (StableSort.stableSort (fun s : ℕ × ℕ => toLex s) spans) n ↔
      Spanned spans n := fun n => exists_congr fun s => and_congr_left' (hmem s)
  rcases hsort : StableSort.stableSort (fun s : ℕ × ℕ => toLex s) spans with _ | ⟨s, rest⟩
  · rw [hsort] at hspanned
    exact ⟨separated_nil, hspanned⟩
  · rw [hsort] at hmem hsorted hspanned
    obtain ⟨hs, hrest⟩ := pairwise_cons.mp hsorted
    have hle : s.1 ≤ s.2 := h s ((hmem s).mp (.head _))
    have hspans : ∀ t ∈ rest, t.1 ≤ t.2 ∧ s.1 ≤ t.1 := fun t ht =>
      ⟨h t ((hmem t).mp (.tail s ht)), hs t ht⟩
    obtain ⟨⟨hsep, -⟩, hmerged⟩ := mergeFrom_spec hle hspans hrest
    exact ⟨hsep, fun n => (hmerged n).trans (hspanned n)⟩

/-! ## The residue -/

/-- The loop over the merged spans, from `cursor` to `stop`. -/
def residualFrom (stop : ℕ) : ℕ → List (ℕ × ℕ) → List (ℕ × ℕ)
  | cursor, [] => if cursor ≤ stop then [(cursor, stop)] else []
  | cursor, s :: covered =>
    if s.2 < cursor ∨ stop < s.1 then residualFrom stop cursor covered
    else
      (if cursor < s.1 then [(cursor, s.1 - 1)] else []) ++
        if stop < max cursor (s.2 + 1) then []
        else residualFrom stop (max cursor (s.2 + 1)) covered

def residualSpans (spans covering : List (ℕ × ℕ)) : List (ℕ × ℕ) :=
  spans.flatMap fun s => residualFrom s.2 s.1 (mergedSpans covering)

/-- The residue lies between the cursor and the end, and holds what is not covered there. -/
theorem residualFrom_spec {stop : ℕ} : ∀ {cursor : ℕ} {covered : List (ℕ × ℕ)}, Separated covered →
    Separated (residualFrom stop cursor covered) ∧
      (∀ s ∈ residualFrom stop cursor covered, cursor ≤ s.1) ∧
      ∀ n, Spanned (residualFrom stop cursor covered) n ↔ cursor ≤ n ∧ n ≤ stop ∧ ¬Spanned covered n
  | cursor, [], _ => by
    unfold residualFrom
    split_ifs with h
    · exact ⟨separated_cons.mpr ⟨h, by simp, separated_nil⟩, by simp, by simp⟩
    · refine ⟨separated_nil, by simp, fun n => ?_⟩
      simp only [spanned_nil, not_false_eq_true, and_true, false_iff]
      omega
  | cursor, (a, b) :: covered, hsep => by
    obtain ⟨hab, hgap, hcovered⟩ := separated_cons.mp hsep
    have hlater : ∀ n, Spanned covered n → b + 1 < n := fun n ⟨t, ht, hn, _⟩ =>
      (hgap t ht).trans_le hn
    unfold residualFrom
    dsimp only
    have hmax := le_max_left cursor (b + 1)
    have hmax' := le_max_right cursor (b + 1)
    obtain ⟨hs, hfrom, hres⟩ := @residualFrom_spec stop cursor covered hcovered
    obtain ⟨hs', hfrom', hres'⟩ := @residualFrom_spec stop (max cursor (b + 1)) covered hcovered
    split_ifs with hskip hgapped hdone hdone
    · refine ⟨hs, hfrom, fun n => (hres n).trans ?_⟩
      grind [spanned_cons]
    · refine ⟨separated_cons.mpr ⟨?_, by simp, separated_nil⟩, by simp, fun n => ?_⟩
      · simp only
        omega
      · grind [spanned_cons, spanned_nil]
    · refine ⟨separated_cons.mpr ⟨?_, fun t ht => ?_, hs'⟩, fun t ht => ?_, fun n => ?_⟩
      · simp only
        omega
      · have := hfrom' t ht
        simp only
        omega
      · rcases mem_cons.mp ht with rfl | ht
        · exact le_rfl
        · exact hmax.trans (hfrom' t ht)
      · have := hres' n
        grind [spanned_cons]
    · refine ⟨separated_nil, by simp, fun n => ?_⟩
      grind [spanned_cons, spanned_nil]
    · refine ⟨hs', fun t ht => hmax.trans (hfrom' t ht), fun n => (hres' n).trans ?_⟩
      grind [spanned_cons]

/-! ## Numbers -/

/-- The numbers that the spans hold. -/
def numbers : List ℕ :=
  spans.flatMap fun s => List.range' s.1 (s.2 + 1 - s.1)

theorem mem_numbers {spans : List (ℕ × ℕ)} {n : ℕ} : n ∈ numbers spans ↔ Spanned spans n := by
  simp only [numbers, mem_flatMap, mem_range'_1, Spanned]
  refine exists_congr fun s => and_congr_right fun _ => ?_
  omega

theorem Separated.nodup_numbers : ∀ {spans : List (ℕ × ℕ)}, Separated spans → (numbers spans).Nodup
  | [], _ => .nil
  | s :: spans, h => by
    obtain ⟨hs, hgap, hspans⟩ := separated_cons.mp h
    refine nodup_append'.mpr ⟨nodup_range', hspans.nodup_numbers, fun n hn hn' => ?_⟩
    obtain ⟨t, ht, hle, -⟩ := mem_numbers.mp hn'
    have := hgap t ht
    have := (mem_range'_1.mp hn).2
    omega

/-- Fewer numbers, and no fewer when all of them are held. -/
theorem Separated.length_numbers_le {l m : List (ℕ × ℕ)} (hl : Separated l)
    (h : ∀ n, Spanned l n → Spanned m n) : (numbers l).length ≤ (numbers m).length ∧
      ((numbers l).length = (numbers m).length → ∀ n, Spanned m n → Spanned l n) := by
  have hsub : (numbers l).Subperm (numbers m) :=
    subperm_of_subset hl.nodup_numbers fun n hn => mem_numbers.mpr (h n (mem_numbers.mp hn))
  refine ⟨hsub.length_le, fun hlen n hn => ?_⟩
  have hperm := hsub.perm_of_length_le hlen.ge
  exact mem_numbers.mp (hperm.mem_iff.mpr (mem_numbers.mpr hn))

/-- Two lists of pieces, the first smaller in each place, have the same total only if they have
the same size in each place. -/
theorem length_eq_of_flatMap_eq {α β : Type} {f g : α → List β} : ∀ {l : List α},
    (∀ a ∈ l, (f a).length ≤ (g a).length) →
    (l.flatMap f).length = (l.flatMap g).length → ∀ a ∈ l, (f a).length = (g a).length
  | [], _, _ => by simp
  | a :: l, hle, hlen => by
    have htotal : ∀ {l : List α}, (∀ a ∈ l, (f a).length ≤ (g a).length) →
        (l.flatMap f).length ≤ (l.flatMap g).length := by
      intro l hle
      induction l with
      | nil => exact le_rfl
      | cons a l ih =>
        simp only [flatMap_cons, length_append]
        exact Nat.add_le_add (hle a (.head _)) (ih fun b hb => hle b (.tail a hb))
    have hrest : ∀ b ∈ l, (f b).length ≤ (g b).length := fun b hb => hle b (.tail a hb)
    have ha := hle a (.head _)
    have hl := htotal hrest
    simp only [flatMap_cons, length_append] at hlen
    intro b hb
    rcases mem_cons.mp hb with rfl | hb
    · omega
    · exact length_eq_of_flatMap_eq hrest (by omega) b hb

/-- With fewer numbers covered the residue is the same, if and only if the spans hold none of
those that are missing. -/
theorem residualSpans_eq_iff {spans covering covering' : List (ℕ × ℕ)}
    (hcovering : ∀ s ∈ covering, s.1 ≤ s.2) (hcovering' : ∀ s ∈ covering', s.1 ≤ s.2)
    (hsub : ∀ n, Spanned covering' n → Spanned covering n) :
    residualSpans spans covering = residualSpans spans covering' ↔
      ∀ s ∈ spans, ∀ n, s.1 ≤ n → n ≤ s.2 → Spanned covering n → Spanned covering' n := by
  obtain ⟨hsep, hspanned⟩ := mergedSpans_spec hcovering
  obtain ⟨hsep', hspanned'⟩ := mergedSpans_spec hcovering'
  have hres := fun s : ℕ × ℕ => @residualFrom_spec s.2 s.1 _ hsep
  have hres' := fun s : ℕ × ℕ => @residualFrom_spec s.2 s.1 _ hsep'
  have hless : ∀ s : ℕ × ℕ, ∀ n, Spanned (residualFrom s.2 s.1 (mergedSpans covering)) n →
      Spanned (residualFrom s.2 s.1 (mergedSpans covering')) n := by
    intro s n hn
    obtain ⟨hle, hle', hnot⟩ := ((hres s).2.2 n).mp hn
    exact ((hres' s).2.2 n).mpr
      ⟨hle, hle', fun hc => hnot ((hspanned n).mpr (hsub n ((hspanned' n).mp hc)))⟩
  constructor
  · intro heq s hs n hle hle' hc
    have hnumbers := congrArg (fun out => (numbers out).length) heq
    simp only [residualSpans, numbers, flatMap_assoc] at hnumbers
    have hlen := length_eq_of_flatMap_eq
      (fun s _ => ((hres s).1.length_numbers_le (hless s)).1) hnumbers s hs
    by_contra hnot
    have hin := ((hres' s).2.2 n).mpr ⟨hle, hle', fun hc' => hnot ((hspanned' n).mp hc')⟩
    have hback := ((hres s).1.length_numbers_le (hless s)).2 hlen n hin
    exact (((hres s).2.2 n).mp hback).2.2 ((hspanned n).mpr hc)
  · intro h
    refine flatMap_congr fun s hs => (hres s).1.ext (hres' s).1 fun n => ⟨hless s n, fun hn => ?_⟩
    obtain ⟨hle, hle', hnot⟩ := ((hres' s).2.2 n).mp hn
    exact ((hres s).2.2 n).mpr ⟨hle, hle', fun hc =>
      hnot ((hspanned' n).mpr (h s hs n hle hle' ((hspanned n).mp hc)))⟩

end LineSpans
