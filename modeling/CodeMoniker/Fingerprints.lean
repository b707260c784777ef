import CodeMoniker.CodeIndexDiff

/-!
# Tails, fingerprints and line numbers

What a change report reads of one definition : the segments of its moniker below the root of its
file (`identityTail`), fingerprints of its text in which its own name and the definitions inside
it are masked (`defFingerprints`), and the lines it spans (`LineIndex`).

The hasher is left open. A fingerprint is the hash of the bytes that the source feeds it.
-/

namespace CodeMoniker

open ByteCodec

/-! ## Tails -/

abbrev IdentityTail := List Segment

namespace IdentityTail

def parent (tail : IdentityTail) : IdentityTail := tail.dropLast

def startsWith (tail start : IdentityTail) : Bool := start.isPrefixOf tail

def rewritePrefix (tail source target : IdentityTail) : Option IdentityTail :=
  if source.isPrefixOf tail then some (target ++ tail.drop source.length) else none

theorem startsWith_iff {tail start : IdentityTail} :
    tail.startsWith start = true ↔ start <+: tail := List.isPrefixOf_iff_prefix

end IdentityTail

def identityTail (moniker root : Moniker) : Option IdentityTail :=
  if root.isAncestorOf moniker then some (moniker.segments.drop root.segments.length) else none

def openParen : UInt8 := 0x28

/-- The name up to the parameter list, and the list if there is one. -/
def splitCallableName (name : Bytes) : Bytes × Option Bytes :=
  if openParen ∈ name then
    (name.takeWhile (· ≠ openParen), some (name.dropWhile (· ≠ openParen)))
  else (name, none)

/-! ## Fingerprints -/

structure DefFingerprints where
  text : ℕ := 0
  body : ℕ := 0
  full : ℕ := 0
  deriving DecidableEq, Repr

def isIdentifierByte (byte : UInt8) : Bool := isAsciiAlphanumeric byte || byte = 0x5F

/-- The name stands at `offset`, and no identifier goes on before or after it. -/
def matchesIdentifierAt (bytes : Bytes) (offset : ℕ) (name : Bytes) : Bool :=
  name ≠ [] && name.isPrefixOf (bytes.drop offset) &&
    !(if offset = 0 then none else bytes[offset - 1]?).any isIdentifierByte &&
    !(bytes[offset + name.length]?).any isIdentifierByte

def findIdentifier (bytes name : Bytes) : Option ℕ :=
  if name = [] then none
  else (List.range (bytes.length - (name.length - 1))).find? fun offset =>
    matchesIdentifierAt bytes offset name

def isBlank (byte : UInt8) : Bool := byte ∈ [0x20, 0x09, 0x0D, 0x0A]

/-- What `masked_hash` writes to the hasher from `cursor` on. `skip` bytes are passed over first :
the rest of a hole, or of the name. -/
def maskedBytes (bytes mask : Bytes) : Bytes → ℕ → ℕ → List (ℕ × ℕ) → Bool → Bool → Bytes
  | [], _, _, _, _, _ => []
  | _ :: rest, cursor, skip + 1, holes, pendingSpace, emitted =>
    maskedBytes bytes mask rest (cursor + 1) skip holes pendingSpace emitted
  | byte :: rest, cursor, 0, holes, pendingSpace, emitted =>
    let space := if pendingSpace then [0x20] else []
    match holes.dropWhile fun hole => hole.2 ≤ cursor with
    | hole :: more =>
      if hole.1 ≤ cursor then
        maskedBytes bytes mask rest (cursor + 1) (hole.2 - cursor - 1) more emitted emitted
      else if matchesIdentifierAt bytes cursor mask then
        space ++ 0 :: maskedBytes bytes mask rest (cursor + 1) (mask.length - 1) (hole :: more)
          false true
      else if isBlank byte then
        maskedBytes bytes mask rest (cursor + 1) 0 (hole :: more) emitted emitted
      else
        space ++ byte :: maskedBytes bytes mask rest (cursor + 1) 0 (hole :: more) false true
    | [] =>
      if matchesIdentifierAt bytes cursor mask then
        space ++ 0 :: maskedBytes bytes mask rest (cursor + 1) (mask.length - 1) [] false true
      else if isBlank byte then
        maskedBytes bytes mask rest (cursor + 1) 0 [] emitted emitted
      else
        space ++ byte :: maskedBytes bytes mask rest (cursor + 1) 0 [] false true

def maskedHash (hash : Bytes → ℕ) (bytes mask : Bytes) (holes : List (ℕ × ℕ)) : ℕ :=
  hash (maskedBytes bytes mask bytes 0 0 holes false false)

/-- The nested spans inside a span, relative to it and in order. -/
def relativeHoles (span : Position) (nested : List Position) (len : ℕ) : List (ℕ × ℕ) :=
  StableSort.stableSort (fun hole : ℕ × ℕ => toLex hole)
    ((nested.filter fun inner => inner ≠ span ∧ span.1 ≤ inner.1 ∧ inner.2 ≤ span.2).map
      fun inner => (min (inner.1 - span.1).toNat len, min (inner.2 - span.1).toNat len))

def spanBytes (source : Bytes) (span : Position) : Bytes :=
  let start := min span.1.toNat source.length
  let stop := max start (min span.2.toNat source.length)
  (source.drop start).take (stop - start)

def defFingerprints (hash : Bytes → ℕ) (source : Bytes) (span : Position) (name : Bytes)
    (nestedSpans : List Position) : DefFingerprints :=
  let bytes := spanBytes source span
  let holes := relativeHoles span nestedSpans bytes.length
  let text := maskedHash hash bytes name holes
  let body :=
    match findIdentifier bytes name with
    | none => text
    | some offset =>
      if 0 < offset then
        maskedHash hash (bytes.drop offset) name
          ((holes.filter fun hole => offset < hole.2).map fun hole => (hole.1 - offset, hole.2 - offset))
      else text
  let full := if holes = [] then text else maskedHash hash bytes name []
  ⟨text, body, full⟩

/-! ## Lines -/

/-- The offsets at which lines start. -/
structure LineIndex where
  sourceLen : ℕ
  lineStarts : List ℕ

namespace LineIndex

def new (source : Bytes) : LineIndex where
  sourceLen := source.length
  lineStarts := 0 :: (source.zipIdx.filter fun b => b.1 = 0x0A).map (·.2 + 1)

variable (lines : LineIndex)

/-- The number of lines that start at or before the offset. Their starts are increasing, so the
partition point is a count. Sources stay below 2^32 lines. -/
def lineAt (offset : ℕ) : ℕ := lines.lineStarts.countP (· ≤ offset)

def lineRange (span : Position) : ℕ × ℕ :=
  let s := min span.1.toNat lines.sourceLen
  let e := max (min span.2.toNat lines.sourceLen) s
  let last := if s < e then e - 1 else s
  (lines.lineAt s, lines.lineAt (min last lines.sourceLen))

theorem lineAt_mono {a b : ℕ} (h : a ≤ b) : lines.lineAt a ≤ lines.lineAt b :=
  List.countP_mono_left fun start _ hstart => by
    simp only [decide_eq_true_eq] at hstart ⊢
    exact hstart.trans h

/-- A range ends at or after its first line. -/
theorem lineRange_le (span : Position) : (lines.lineRange span).1 ≤ (lines.lineRange span).2 := by
  unfold lineRange
  dsimp only
  refine lines.lineAt_mono ?_
  split_ifs with h <;> omega

end LineIndex

end CodeMoniker
