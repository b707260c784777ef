import Mathlib

/-!
# Values of query texts

Numbers and cursors as they are written in a query. A cursor is a generation and an offset,
`7:40`; a response prints the cursor of the next page in this form, and without the
generation when there is none.
-/

namespace CodeMoniker

/-- How fresh the workspace of an answer must be. -/
inductive Consistency
  | current
  | staleOk
  | refreshIfStale
  deriving DecidableEq, Repr

namespace Query

inductive UsageDirection
  | incoming
  | outgoing
  | both
  deriving DecidableEq, Repr

inductive QueryParseError where
  | empty
  | unknownOperation (op : List Char)
  | invalidToken (token : List Char)
  | invalidValue (key value : List Char)
  | missingRequired (field : List Char)
  | missingSemanticScope
  | unknownField (op key hint : List Char)
  | unexpectedArgument (op value : List Char)
  | unsupportedProjection (op : List Char)
  | unknownProjectionField (op field hint : List Char)
  deriving DecidableEq

/-! ## Numbers -/

/-- The largest number of 64 bits, of a generation and of an offset or a limit. -/
def maxU64 : ℕ := 2 ^ 64 - 1

/-- One more digit, unless the number is too large. -/
def pushDigit (max : ℕ) (acc : ℕ) (ch : Char) : Option ℕ :=
  if ch.isDigit ∧ 10 * acc + (ch.toNat - '0'.toNat) ≤ max then
    some (10 * acc + (ch.toNat - '0'.toNat))
  else none

/-- `str::parse` of an unsigned number : an optional `+` and digits. -/
def parseUnsigned (max : ℕ) (text : List Char) : Option ℕ :=
  let digits := if text.head? = some '+' then text.tail else text
  if digits.isEmpty then none else digits.foldlM (pushDigit max) 0

/-- `str::split_once`. -/
def splitOnce (sep : Char) (text : List Char) : Option (List Char × List Char) :=
  match text.dropWhile (· ≠ sep) with
  | [] => none
  | _ :: rest => some (text.takeWhile (· ≠ sep), rest)

/-- A number as it is printed. -/
def formatNat (n : ℕ) : List Char := Nat.toDigits 10 n

theorem le_ofDigitChars (digits : List Char) (acc : ℕ) : acc ≤ Nat.ofDigitChars 10 digits acc := by
  rw [Nat.ofDigitChars_eq_ofDigitChars_zero]
  exact (Nat.le_mul_of_pos_left acc (Nat.pow_pos (by decide))).trans (Nat.le_add_right _ _)

theorem foldlM_pushDigit {max : ℕ} : ∀ {digits : List Char} {acc : ℕ},
    (∀ c ∈ digits, c.isDigit = true) → Nat.ofDigitChars 10 digits acc ≤ max →
      digits.foldlM (pushDigit max) acc = some (Nat.ofDigitChars 10 digits acc)
  | [], _, _, _ => by simp
  | c :: digits, acc, hdigits, hmax => by
    rw [Nat.ofDigitChars_cons] at hmax ⊢
    have hpush : pushDigit max acc c = some (10 * acc + (c.toNat - '0'.toNat)) :=
      if_pos ⟨hdigits c List.mem_cons_self, (le_ofDigitChars digits _).trans hmax⟩
    rw [List.foldlM_cons, hpush]
    exact foldlM_pushDigit (fun d hd => hdigits d (List.mem_cons_of_mem c hd)) hmax

theorem isDigit_of_mem_formatNat {n : ℕ} {c : Char} (h : c ∈ formatNat n) : c.isDigit = true :=
  Nat.isDigit_of_mem_toDigits (by decide) (by decide) h

/-- A printed number is parsed. -/
theorem parseUnsigned_formatNat {max n : ℕ} (h : n ≤ max) :
    parseUnsigned max (formatNat n) = some n := by
  have hsign : (formatNat n).head? ≠ some '+' := fun hhead => by
    have hdigit := isDigit_of_mem_formatNat (List.mem_of_mem_head? hhead)
    exact absurd hdigit (by decide)
  have hempty : (formatNat n).isEmpty = false :=
    List.isEmpty_eq_false_iff.mpr Nat.toDigits_ne_nil
  have hvalue : Nat.ofDigitChars 10 (formatNat n) 0 = n := Nat.ofDigitChars_ten_toDigits
  rw [parseUnsigned]
  simp only [if_neg hsign, hempty, Bool.false_eq_true, if_false]
  rw [foldlM_pushDigit (fun c hc => isDigit_of_mem_formatNat hc) (by rwa [hvalue]), hvalue]

theorem flatten_splitOn {α : Type} [DecidableEq α] (c : α) (u : List α) :
    (u.splitOn c).flatten = u.filter (· ≠ c) := by
  induction u with
  | nil => simp
  | cons d u ih =>
    rw [List.splitOn_cons_eq_if_modifyHead]
    by_cases hd : d = c
    · simp [hd, ih]
    · obtain ⟨head, tail, hsplit⟩ := List.exists_cons_of_ne_nil (List.splitOn_ne_nil c u)
      rw [hsplit] at ih ⊢
      simp only [List.flatten_cons] at ih
      simp [hd, ih]

theorem splitOnce_append {sep : Char} {before after : List Char} (h : sep ∉ before) :
    splitOnce sep (before ++ sep :: after) = some (before, after) := by
  have hbefore : ∀ c ∈ before, decide (c ≠ sep) = true :=
    fun c hc => decide_eq_true fun heq => h (heq ▸ hc)
  rw [splitOnce, List.dropWhile_append_of_pos hbefore, List.takeWhile_append_of_pos hbefore]
  simp

theorem splitOnce_eq_none {sep : Char} {text : List Char} (h : sep ∉ text) :
    splitOnce sep text = none := by
  have hnil : text.dropWhile (· ≠ sep) = [] :=
    List.dropWhile_eq_nil_iff.2 fun c hc => decide_eq_true fun heq => h (heq ▸ hc)
  rw [splitOnce, hnil]

/-! ## Cursors -/

structure QueryCursor where
  offset : ℕ
  generation : Option ℕ
  deriving DecidableEq, Repr

/-- The cursor of a request, and how many rows a page has at most. -/
structure Page where
  cursor : Option QueryCursor := none
  limit : ℕ := 80
  deriving DecidableEq, Repr

def parseCursor (value : List Char) : Except QueryParseError QueryCursor :=
  match splitOnce ':' value with
  | none => .error (.invalidValue "cursor".toList value)
  | some (generation, offset) =>
    match parseUnsigned maxU64 generation with
    | none => .error (.invalidValue "cursor".toList value)
    | some generation =>
      match parseUnsigned maxU64 offset with
      | none => .error (.invalidValue "cursor".toList value)
      | some offset => .ok ⟨offset, some generation⟩

/-- The cursor of a response, after `next_cursor: `. -/
def formatCursor (cursor : QueryCursor) : List Char :=
  match cursor.generation with
  | some generation => formatNat generation ++ ':' :: formatNat cursor.offset
  | none => formatNat cursor.offset

theorem separator_notMem_formatNat (n : ℕ) : ':' ∉ formatNat n :=
  fun h => absurd (isDigit_of_mem_formatNat h) (by decide)

/-- A printed cursor is parsed when it has a generation, and refused otherwise. -/
theorem parseCursor_formatCursor {cursor : QueryCursor} (hoffset : cursor.offset ≤ maxU64)
    (hgeneration : ∀ g ∈ cursor.generation, g ≤ maxU64) :
    parseCursor (formatCursor cursor) = .ok cursor ↔ cursor.generation.isSome := by
  obtain ⟨offset, generation⟩ := cursor
  cases generation with
  | none =>
    rw [parseCursor, formatCursor, splitOnce_eq_none (separator_notMem_formatNat offset)]
    simp
  | some g =>
    rw [parseCursor, formatCursor, splitOnce_append (separator_notMem_formatNat g)]
    simp only [parseUnsigned_formatNat (hgeneration g rfl), parseUnsigned_formatNat hoffset]
    simp

end Query

end CodeMoniker
