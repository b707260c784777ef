import Mathlib

/-!
# Patterns of paths

A pattern is a list of pieces. Two readings of it are compared. In the one, a piece is a part of
a regular expression and the pattern is the product of the languages of its pieces, where a dot
stands for any character but a line break (`language`). In the other, the path is split into
parts, one for each piece, and each piece says what its part may be (`Splits`). On a text without
line breaks they are the same (`mem_language_iff_splits`).
-/

namespace PathPatterns

open List

inductive Piece where
  | literal (c : Char)
  | nameChar
  | nameText
  | anyText
  | folders
  deriving DecidableEq, Repr

/-- Names that each end with a `/`. -/
def Folders (u : List Char) : Prop :=
  ∃ names : List (List Char), (∀ name ∈ names, '/' ∉ name) ∧ u = names.flatMap (· ++ ['/'])

namespace Piece

/-- The texts that the part of the regular expression matches. -/
def language : Piece → Language Char
  | literal c => {[c]}
  | nameChar => {u | ∃ c, c ≠ '/' ∧ u = [c]}
  | nameText => {u | '/' ∉ u}
  | anyText => {u | '\n' ∉ u}
  | folders => {u | u = [] ∨ ∃ v, '\n' ∉ v ∧ u = v ++ ['/']}

/-- What a piece may stand for in a path. -/
def Covers : Piece → List Char → Prop
  | literal c, u => u = [c]
  | nameChar, u => ∃ c, c ≠ '/' ∧ u = [c]
  | nameText, u => '/' ∉ u
  | anyText, _ => True
  | folders, u => Folders u

end Piece

def language (pieces : List Piece) : Language Char := (pieces.map Piece.language).prod

/-- The path is cut into one part for each piece. -/
def Splits (pieces : List Piece) (path : List Char) : Prop :=
  ∃ parts, List.Forall₂ Piece.Covers pieces parts ∧ path = parts.flatten

/-! ## Folders -/

theorem Folders.nil : Folders [] := ⟨[], by simp, rfl⟩

/-- Whole names before a `/` are what ends with a `/`. -/
theorem folders_iff {u : List Char} : Folders u ↔ u = [] ∨ ∃ v, u = v ++ ['/'] := by
  constructor
  · rintro ⟨names, -, rfl⟩
    rcases eq_nil_or_concat names with rfl | ⟨names, name, rfl⟩
    · exact Or.inl rfl
    · refine Or.inr ⟨names.flatMap (· ++ ['/']) ++ name, ?_⟩
      simp
  · rintro (rfl | ⟨v, rfl⟩)
    · exact .nil
    · induction v with
      | nil => exact ⟨[[]], by simp, rfl⟩
      | cons c v ih =>
        obtain ⟨names, hnames, htext⟩ := ih
        by_cases hc : c = '/'
        · refine ⟨[] :: names, by simpa using hnames, ?_⟩
          rw [cons_append, htext, hc]
          rfl
        · obtain ⟨name, names, rfl⟩ : ∃ name rest, names = name :: rest :=
            exists_cons_of_ne_nil (by rintro rfl; simp at htext)
          rw [forall_mem_cons] at hnames
          refine ⟨(c :: name) :: names, forall_mem_cons.mpr ⟨?_, hnames.2⟩, ?_⟩
          · simpa [eq_comm, hc] using hnames.1
          · rw [cons_append, htext]
            rfl

/-! ## Products of languages -/

@[simp] theorem language_nil : language [] = 1 := rfl

@[simp] theorem language_cons (piece : Piece) (pieces : List Piece) :
    language (piece :: pieces) = piece.language * language pieces := prod_cons

theorem language_append (a b : List Piece) : language (a ++ b) = language a * language b := by
  rw [language, map_append, prod_append]
  rfl

theorem mem_language_iff {pieces : List Piece} {path : List Char} : path ∈ language pieces ↔
    ∃ parts, Forall₂ (fun piece part => part ∈ piece.language) pieces parts ∧
      path = parts.flatten := by
  induction pieces generalizing path with
  | nil =>
    rw [language_nil, Language.mem_one]
    constructor
    · rintro rfl
      exact ⟨[], .nil, rfl⟩
    · rintro ⟨parts, hparts, rfl⟩
      cases hparts
      rfl
  | cons piece pieces ih =>
    rw [language_cons, Language.mem_mul]
    constructor
    · rintro ⟨u, hu, v, hv, rfl⟩
      obtain ⟨parts, hparts, rfl⟩ := ih.mp hv
      exact ⟨u :: parts, .cons hu hparts, rfl⟩
    · rintro ⟨parts, hparts, rfl⟩
      obtain ⟨u, parts, hu, hrest, rfl⟩ := List.forall₂_cons_left_iff.mp hparts
      exact ⟨u, hu, parts.flatten, ih.mpr ⟨parts, hrest, rfl⟩, rfl⟩

/-- Literals match their own text only. -/
theorem mem_language_literals {text path : List Char} :
    path ∈ language (text.map .literal) ↔ path = text := by
  induction text generalizing path with
  | nil => exact Language.mem_one _
  | cons c text ih =>
    rw [map_cons, language_cons, Language.mem_mul]
    constructor
    · rintro ⟨u, rfl, v, hv, rfl⟩
      rw [ih.mp hv]
      rfl
    · rintro rfl
      exact ⟨[c], rfl, text, ih.mpr rfl, rfl⟩

/-! ## Matching -/

def Piece.admits : Piece → List Char → Bool
  | literal c, u => u = [c]
  | nameChar, u => u.length = 1 ∧ '/' ∉ u
  | nameText, u => '/' ∉ u
  | anyText, u => '\n' ∉ u
  | folders, u => u = [] ∨ u.getLast? = some '/' ∧ '\n' ∉ u.dropLast

/-- Tries every length for the part of the first piece. -/
def admits : List Piece → List Char → Bool
  | [], path => path = []
  | piece :: pieces, path => (List.range (path.length + 1)).any fun k =>
    piece.admits (path.take k) && admits pieces (path.drop k)

theorem Piece.admits_iff {piece : Piece} {part : List Char} :
    piece.admits part = true ↔ part ∈ piece.language := by
  cases piece with
  | literal c => exact decide_eq_true_iff
  | nameChar =>
    refine decide_eq_true_iff.trans ⟨?_, ?_⟩
    · rintro ⟨hlength, hslash⟩
      obtain ⟨c, rfl⟩ := length_eq_one_iff.mp hlength
      exact ⟨c, fun hc => hslash (by simp [hc]), rfl⟩
    · rintro ⟨c, hc, rfl⟩
      exact ⟨rfl, by simpa [eq_comm] using hc⟩
  | nameText => exact decide_eq_true_iff
  | anyText => exact decide_eq_true_iff
  | folders =>
    refine decide_eq_true_iff.trans (or_congr_right ⟨?_, ?_⟩)
    · rintro ⟨hlast, hline⟩
      obtain ⟨v, rfl⟩ := getLast?_eq_some_iff.mp hlast
      exact ⟨v, by simpa using hline, rfl⟩
    · rintro ⟨v, hline, rfl⟩
      exact ⟨by simp, by simpa using hline⟩

theorem admits_iff {pieces : List Piece} {path : List Char} :
    admits pieces path = true ↔ path ∈ language pieces := by
  induction pieces generalizing path with
  | nil => exact decide_eq_true_iff.trans (Language.mem_one _).symm
  | cons piece pieces ih =>
    rw [language_cons, Language.mem_mul]
    simp only [admits, any_eq_true, mem_range, Bool.and_eq_true, Piece.admits_iff, ih]
    constructor
    · rintro ⟨k, -, hpart, hrest⟩
      exact ⟨_, hpart, _, hrest, take_append_drop k path⟩
    · rintro ⟨u, hu, v, hv, rfl⟩
      refine ⟨u.length, ?_, ?_, ?_⟩
      · rw [length_append]
        omega
      · rwa [take_left]
      · rwa [drop_left]

/-! ## The two readings -/

theorem Piece.mem_language_iff_covers {piece : Piece} {part : List Char} (h : '\n' ∉ part) :
    part ∈ piece.language ↔ piece.Covers part := by
  cases piece with
  | literal c => exact Iff.rfl
  | nameChar => exact Iff.rfl
  | nameText => exact Iff.rfl
  | anyText => exact iff_of_true h trivial
  | folders =>
    refine Iff.trans (or_congr_right ⟨?_, ?_⟩) folders_iff.symm
    · rintro ⟨v, -, rfl⟩
      exact ⟨v, rfl⟩
    · rintro ⟨v, rfl⟩
      exact ⟨v, fun hv => h (mem_append_left _ hv), rfl⟩

/-- Without line breaks, a path is in the language of a pattern exactly when it splits. -/
theorem mem_language_iff_splits {pieces : List Piece} {path : List Char} (h : '\n' ∉ path) :
    path ∈ language pieces ↔ Splits pieces path := by
  rw [mem_language_iff]
  refine exists_congr fun parts => and_congr_left fun hpath => ?_
  have hline : ∀ part ∈ parts, '\n' ∉ part := by
    rintro part hpart hmem
    exact h (hpath ▸ mem_flatten.mpr ⟨part, hpart, hmem⟩)
  clear hpath
  induction pieces generalizing parts with
  | nil => simp
  | cons piece pieces ih =>
    cases parts with
    | nil => simp
    | cons part parts =>
      rw [List.forall₂_cons, List.forall₂_cons]
      exact and_congr (Piece.mem_language_iff_covers (hline part mem_cons_self))
        (ih parts fun part hpart => hline part (mem_cons_of_mem _ hpart))

end PathPatterns
