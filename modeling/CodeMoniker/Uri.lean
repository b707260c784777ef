import CodeMoniker.Moniker

/-!
# Moniker URIs

```text
<scheme><project>(/<kind>:<name>)*
```

`toUri` writes a moniker and `fromUri` reads one. A text is a list of characters; the
scanner of `fromUri` works on its UTF-8 bytes. A name that is empty or contains `/`, a
backtick or ASCII whitespace is written between backticks, with every backtick doubled.

`Spells text value` is the grammar of one component, `SpellsSegments` that of the
segments. `readName_eq_ok_iff` and `readSegments_eq_ok_iff` say that the scanner accepts
exactly these. `fromUri_toUri` is the round trip.
-/

namespace CodeMoniker

open List ByteCodec Except

/-! ## Configuration and errors -/

def slash : UInt8 := 0x2f

def colon : UInt8 := 0x3a

def backtick : UInt8 := 0x60

structure UriConfig where
  scheme : List Char

/-- The kind of `invalidKind` is the bytes that the error renders as text. -/
inductive UriError where
  | missingScheme (expected : List Char)
  | missingProject
  | emptySegment (pos : ℕ)
  | missingKindSeparator (pos : ℕ)
  | invalidKind (kind : Bytes)
  | unterminatedBacktick (pos : ℕ)
  | trailingAfterBacktick (pos : ℕ)
  | nonUtf8Project
  | nonUtf8Segment
  | componentTooLong (component : String) (len : ℕ)
  deriving DecidableEq, Repr

/-! ## Writing -/

def isAsciiWhitespace (b : UInt8) : Bool :=
  b == 0x20 || b == 0x09 || b == 0x0a || b == 0x0c || b == 0x0d

variable (bytes : Bytes)

def nameNeedsEscaping : Bool :=
  bytes.isEmpty || bytes.any fun b => b == slash || b == backtick || isAsciiWhitespace b

/-- `std::str::from_utf8` with a panic on bytes that are no text. -/
def expectUtf8 {ε : Type} (bytes : Bytes) : Except (Stop ε) (List Char) :=
  match Utf8.decode? bytes with
  | some s => .ok s
  | none => .error .panic

def escapeChar (c : Char) : List Char := if c = '`' then ['`', '`'] else [c]

def writeName {ε : Type} (out : List Char) (bytes : Bytes) : Except (Stop ε) (List Char) := do
  let s ← expectUtf8 bytes
  if ¬nameNeedsEscaping bytes then return out ++ s
  else return out ++ '`' :: s.flatMap escapeChar ++ ['`']

def writeSegment {ε : Type} (out : List Char) (seg : Segment) : Except (Stop ε) (List Char) := do
  let kind ← expectUtf8 seg.kind
  writeName (out ++ '/' :: kind ++ [':']) seg.name

def toUri {ε : Type} (m : Moniker) (config : UriConfig) : Except (Stop ε) (List Char) := do
  let view ← m.asView
  let project ← view.project
  let out ← writeName config.scheme project
  let segments ← view.segments.collect
  segments.foldlM writeSegment out

/-! ## Reading -/

def isTerminator (b : UInt8) : Bool := b == slash

/-- The loop over a backtick-quoted name that opened at `start`. -/
def readQuoted (bytes : Bytes) (start i : ℕ) (out : Bytes) :
    Except (Stop UriError) (Bytes × ℕ) :=
  if h : i < bytes.length then
    if bytes[i] = backtick then
      if bytes[i + 1]? = some backtick then readQuoted bytes start (i + 2) (out ++ [backtick])
      else .ok (out, i + 1)
    else readQuoted bytes start (i + 1) (out ++ [bytes[i]])
  else .error (.error (.unterminatedBacktick start))
termination_by bytes.length - i

def readName (start : ℕ) : Except (Stop UriError) (Bytes × ℕ) :=
  if bytes[start]? = some backtick then do
    let (out, i) ← readQuoted bytes start (start + 1) []
    refuse (bytes[i]?.any fun b => !isTerminator b) (.trailingAfterBacktick start)
    return (out, i)
  else do
    let i := scanWhile (fun b => !isTerminator b) bytes start
    let name ← slice bytes start i
    return (name, i)

def isPlainIdentifier : Bool :=
  if bytes.isEmpty then false
  else if ¬bytes.head?.any isAsciiAlphabetic then false
  else (bytes.drop 1).all fun b => isAsciiAlphanumeric b || b == 0x5f

def readKind (start segStart : ℕ) : Except (Stop UriError) (Bytes × ℕ) := do
  let i := scanWhile (fun b => b != colon && b != slash) bytes start
  let kind ← slice bytes start i
  refuse kind.isEmpty (.emptySegment segStart)
  refuse (¬isPlainIdentifier kind) (.invalidKind kind)
  return (kind, i)

/-- One turn of the segment loop of `from_uri`. The debug assertion is a panic. -/
def readSegment (i : ℕ) : Except (Stop UriError) (Segment × ℕ) := do
  let b ← index bytes i
  if b ≠ slash then .error .panic
  let segStart := i + 1
  let (kind, kindEnd) ← readKind bytes segStart segStart
  refuse (¬bytes[kindEnd]? = some colon) (.missingKindSeparator segStart)
  let (name, nameEnd) ← readName bytes (kindEnd + 1)
  refuse (name.isEmpty ∧ kind.isEmpty) (.emptySegment segStart)
  refuse (¬Utf8.Valid name) .nonUtf8Segment
  return (⟨kind, name⟩, nameEnd)

theorem lt_of_readQuoted {bytes out v : Bytes} {start i j : ℕ}
    (h : readQuoted bytes start i out = .ok (v, j)) : i < j := by
  fun_induction readQuoted bytes start i out with
  | case1 i out hlt hb hd ih =>
    have := ih h
    omega
  | case2 i out hlt hb hd =>
    obtain ⟨-, rfl⟩ := Prod.mk.inj (ok.inj h)
    omega
  | case3 i out hlt hb ih =>
    have := ih h
    omega
  | case4 => cases h

theorem le_of_readName {bytes v : Bytes} {i j : ℕ} (h : readName bytes i = .ok (v, j)) : i ≤ j := by
  unfold readName at h
  split_ifs at h with hq
  · simp only [bind_eq_ok, pure_eq_ok, ok.injEq, Prod.exists, Prod.mk.injEq] at h
    obtain ⟨out, k, hquoted, -, -, -, rfl⟩ := h
    have := lt_of_readQuoted hquoted
    omega
  · simp only [bind_eq_ok, pure_eq_ok, ok.injEq, Prod.mk.injEq] at h
    obtain ⟨name, -, -, rfl⟩ := h
    exact le_scanWhile

theorem readSegment_eq_ok_iff {bytes : Bytes} {i j : ℕ} {seg : Segment} :
    readSegment bytes i = .ok (seg, j) ↔ index bytes i = (.ok slash : Except (Stop UriError) _) ∧
        ∃ k, readKind bytes (i + 1) (i + 1) = .ok (seg.kind, k) ∧ bytes[k]? = some colon ∧
          readName bytes (k + 1) = .ok (seg.name, j) ∧
          ¬(seg.name.isEmpty ∧ seg.kind.isEmpty) ∧ Utf8.Valid seg.name := by
  unfold readSegment
  rw [bind_eq_ok]
  constructor
  · rintro ⟨b, hb, h⟩
    by_cases hs : b = slash
    · subst hs
      simp only [ne_eq, not_true_eq_false, if_false, pure_eq_ok, bind_eq_ok, refuse_eq_ok,
        ok.injEq, Prod.exists, Prod.mk.injEq, not_not, exists_const] at h
      obtain ⟨kind, k, hk, hcolon, name, e, hn, hne, hutf, rfl, rfl⟩ := h
      exact ⟨hb, k, hk, hcolon, hn, hne, hutf⟩
    · simp [hs, bind, Except.bind] at h
  · rintro ⟨hb, k, hk, hcolon, hn, hne, hutf⟩
    refine ⟨slash, hb, ?_⟩
    simp only [ne_eq, not_true_eq_false, if_false, pure_eq_ok, ok_bind, hk, hcolon, hn]
    rw [refuse_of_not _ (by simp), ok_bind, refuse_of_not _ hne, ok_bind, refuse_of_not _ (by simpa)]
    rfl

theorem le_of_readKind {bytes kind : Bytes} {i s j : ℕ} (h : readKind bytes i s = .ok (kind, j)) :
    i ≤ j := by
  simp only [readKind, bind_eq_ok, pure_eq_ok, ok.injEq, Prod.mk.injEq] at h
  obtain ⟨k, -, _, -, _, -, -, rfl⟩ := h
  exact le_scanWhile

theorem lt_of_readSegment {bytes : Bytes} {i j : ℕ} {seg : Segment}
    (h : readSegment bytes i = .ok (seg, j)) : i < j := by
  obtain ⟨-, k, hk, -, hn, -, -⟩ := readSegment_eq_ok_iff.mp h
  have h1 := le_of_readKind hk
  have h2 := le_of_readName hn
  omega

/-- The segment loop of `from_uri`. -/
def readSegments (bytes : Bytes) (i : ℕ) : Except (Stop UriError) (List Segment) :=
  if i < bytes.length then
    match _h : readSegment bytes i with
    | .error e => .error e
    | .ok (seg, next) => do
      let segs ← readSegments bytes next
      return seg :: segs
  else .ok []
termination_by bytes.length - i
decreasing_by
  have := lt_of_readSegment _h
  omega

/-- The last arm is `unreachable!`. -/
def uriErrorFromEncoding : EncodingError → Stop UriError
  | .emptyProject => .error .missingProject
  | .nonUtf8Project => .error .nonUtf8Project
  | .nonUtf8SegmentKind | .nonUtf8SegmentName => .error .nonUtf8Segment
  | .invalidSegmentKind => .error (.invalidKind [])
  | .projectTooLong len => .error (.componentTooLong "project" len)
  | .segmentKindTooLong len => .error (.componentTooLong "segment kind" len)
  | .segmentNameTooLong len => .error (.componentTooLong "segment name" len)
  | .truncated | .unknownVersion _ | .projectOverflow | .segmentOverflow => .panic

def stripPrefix (scheme uri : List Char) : Option (List Char) :=
  if scheme.isPrefixOf uri then some (uri.drop scheme.length) else none

def stripScheme (config : UriConfig) (uri : List Char) : Except (Stop UriError) (List Char) :=
  match stripPrefix config.scheme uri with
  | some rest => .ok rest
  | none => .error (.error (.missingScheme config.scheme))

def mapEncodingError : Except (Stop EncodingError) Moniker → Except (Stop UriError) Moniker
  | .ok m => .ok m
  | .error (.error e) => .error (uriErrorFromEncoding e)
  | .error .panic => .error .panic

def fromUri (uri : List Char) (config : UriConfig) : Except (Stop UriError) Moniker := do
  let rest ← stripScheme config uri
  let bytes := Utf8.encode rest
  let (project, projectEnd) ← readName bytes 0
  refuse project.isEmpty .missingProject
  refuse (¬Utf8.Valid project) .nonUtf8Project
  let segments ← readSegments bytes projectEnd
  mapEncodingError (MonikerBuilder.mk project segments).tryMoniker

/-! ## The grammar -/

def doubleBackticks (value : Bytes) : Bytes :=
  value.flatMap fun b => if b = backtick then [backtick, backtick] else [b]

def quote (value : Bytes) : Bytes := backtick :: (doubleBackticks value ++ [backtick])

/-- `text` spells `value` : in backticks with every backtick doubled, or as it is when it
has no `/` and does not start with a backtick. -/
inductive Spells : Bytes → Bytes → Prop where
  | quoted (value : Bytes) : Spells (quote value) value
  | raw {value : Bytes} (noSlash : ∀ b ∈ value, b ≠ slash) (head : value.head? ≠ some backtick) :
    Spells value value

/-- A component ends where the text does or at a `/`. -/
def Boundary (tail : Bytes) : Prop := tail = [] ∨ tail.head? = some slash

/-- `text` spells the segments, as `/kind:name` parts. -/
inductive SpellsSegments : Bytes → List Segment → Prop where
  | nil : SpellsSegments [] []
  | cons {s : Segment} {text rest : Bytes} {segs : List Segment} (kind : isUriKind s.kind)
    (name : Spells text s.name) (tail : SpellsSegments rest segs) :
    SpellsSegments (slash :: (s.kind ++ colon :: (text ++ rest))) (s :: segs)

theorem SpellsSegments.boundary {text : Bytes} {segs : List Segment} (h : SpellsSegments text segs) :
    Boundary text := by
  cases h with
  | nil => exact Or.inl rfl
  | cons => exact Or.inr rfl

/-! ## Quoted names -/

@[simp] theorem doubleBackticks_nil : doubleBackticks [] = [] := rfl

theorem doubleBackticks_cons (b : UInt8) (bs : Bytes) : doubleBackticks (b :: bs) =
      (if b = backtick then [backtick, backtick] else [b]) ++ doubleBackticks bs := rfl

theorem doubleBackticks_append (a b : Bytes) :
    doubleBackticks (a ++ b) = doubleBackticks a ++ doubleBackticks b := flatMap_append

theorem doubleBackticks_of_notMem : ∀ {bs : Bytes}, backtick ∉ bs → doubleBackticks bs = bs
  | [], _ => rfl
  | b :: bs, h => by
    have hb : b ≠ backtick := fun hb => h (by simp [hb])
    rw [doubleBackticks_cons, if_neg hb, doubleBackticks_of_notMem fun hm => h (by simp [hm])]
    rfl

theorem readQuoted_nil {bytes out : Bytes} {start i : ℕ} (h : At bytes i []) :
    readQuoted bytes start i out = .error (.error (.unterminatedBacktick start)) := by
  have hlen := h.length
  rw [length_nil] at hlen
  rw [readQuoted, dif_neg (by omega)]

theorem readQuoted_cons {bytes rest out : Bytes} {start i : ℕ} {b : UInt8}
    (h : At bytes i (b :: rest)) : readQuoted bytes start i out = if b = backtick then
        if rest.head? = some backtick then readQuoted bytes start (i + 2) (out ++ [backtick])
        else .ok (out, i + 1) else readQuoted bytes start (i + 1) (out ++ [b]) := by
  rw [readQuoted, dif_pos h.lt, h.getElem h.lt, h.tail.getElem?]

/-- The quoted scanner reads doubled text up to the closing backtick. -/
theorem readQuoted_doubleBackticks : ∀ (w : Bytes) {bytes tail out : Bytes} {start i : ℕ},
    At bytes i (doubleBackticks w ++ backtick :: tail) → tail.head? ≠ some backtick →
      readQuoted bytes start i out = .ok (out ++ w, i + (doubleBackticks w).length + 1)
  | [], bytes, tail, out, start, i, h, htail => by
    rw [doubleBackticks_nil, nil_append] at h
    rw [readQuoted_cons h, if_pos rfl, if_neg htail]
    simp
  | b :: w, bytes, tail, out, start, i, h, htail => by
    rw [doubleBackticks_cons] at h ⊢
    by_cases hb : b = backtick
    · rw [if_pos hb] at h ⊢
      have h1 : At bytes i (backtick :: backtick :: (doubleBackticks w ++ backtick :: tail)) := h
      rw [readQuoted_cons h1, if_pos rfl, if_pos head?_cons,
        readQuoted_doubleBackticks w h1.tail.tail htail]
      simp only [hb, append_assoc, cons_append, nil_append, length_cons,
        ok.injEq, Prod.mk.injEq, true_and]
      omega
    · rw [if_neg hb] at h ⊢
      have h1 : At bytes i (b :: (doubleBackticks w ++ backtick :: tail)) := h
      rw [readQuoted_cons h1, if_neg hb, readQuoted_doubleBackticks w h1.tail htail]
      simp only [append_assoc, cons_append, nil_append, length_cons,
        ok.injEq, Prod.mk.injEq, true_and]
      omega

/-- What the quoted scanner accepts is doubled text with a closing backtick that is not
itself doubled. -/
theorem exists_of_readQuoted {bytes rest out v : Bytes} {start i j : ℕ} (h : At bytes i rest)
    (hok : readQuoted bytes start i out = .ok (v, j)) :
    ∃ w tail, rest = doubleBackticks w ++ backtick :: tail ∧ tail.head? ≠ some backtick ∧
      v = out ++ w ∧ j = i + (doubleBackticks w).length + 1 := by
  -- a doubled backtick takes two bytes, so induct on the length of the rest
  induction hn : rest.length using Nat.strong_induction_on generalizing rest i out with
  | _ n ih =>
    match rest, h, hn with
    | [], h, _ =>
      rw [readQuoted_nil h] at hok
      cases hok
    | b :: rest, h, hn =>
      rw [readQuoted_cons h] at hok
      rw [length_cons] at hn
      split_ifs at hok with hb hdouble
      · obtain ⟨rest, rfl⟩ : ∃ r, rest = backtick :: r := by
          cases rest with
          | nil => simp at hdouble
          | cons c r => exact ⟨r, by simpa using hdouble⟩
        obtain ⟨w, tail, rfl, htail, rfl, rfl⟩ := ih rest.length
          (by rw [length_cons] at hn; omega) h.tail.tail hok rfl
        refine ⟨backtick :: w, tail, ?_, htail, by simp, ?_⟩
        · simp [doubleBackticks_cons, hb]
        · simp only [doubleBackticks_cons, if_true, length_append, length_cons, length_nil]
          omega
      · obtain ⟨rfl, rfl⟩ := Prod.mk.inj (ok.inj hok)
        exact ⟨[], rest, by simp [hb], hdouble, by simp, by simp⟩
      · obtain ⟨w, tail, rfl, htail, rfl, rfl⟩ := ih rest.length (by omega) h.tail hok rfl
        refine ⟨b :: w, tail, ?_, htail, by simp, ?_⟩
        · simp [doubleBackticks_cons, hb]
        · simp only [doubleBackticks_cons, if_neg hb, length_append, length_cons, length_nil]
          omega

/-! ## One component -/

theorem any_not_isTerminator_iff {tail : Bytes} :
    (tail.head?.any fun b => !isTerminator b) = true ↔ ¬Boundary tail := by
  cases tail with
  | nil => simp [Boundary]
  | cons b tail => simp [Boundary, isTerminator]

theorem Boundary.head?_ne {tail : Bytes} (h : Boundary tail) : tail.head? ≠ some backtick := by
  rcases h with rfl | h
  · simp
  · rw [h]
    decide

/-- A raw run stops exactly at the boundary. -/
theorem takeWhile_append_boundary {text tail : Bytes} (hs : ∀ b ∈ text, b ≠ slash)
    (ht : Boundary tail) : (text ++ tail).takeWhile (fun b => !isTerminator b) = text := by
  rw [takeWhile_append_of_pos fun b hb => by simp [isTerminator, hs b hb]]
  rcases ht with rfl | ht
  · simp
  · cases tail with
    | nil => simp
    | cons b tail =>
      obtain rfl : b = slash := by simpa using ht
      simp [isTerminator]

theorem takeWhile_dropWhile_boundary (rest : Bytes) :
    (∀ b ∈ rest.takeWhile fun b => !isTerminator b, b ≠ slash) ∧
      Boundary (rest.dropWhile fun b => !isTerminator b) := by
  constructor
  · intro b hb hslash
    have hall := all_eq_true.mp all_takeWhile b hb
    simp [hslash, isTerminator] at hall
  · have hhead := head?_dropWhile_not (fun b => !isTerminator b) rest
    cases hd : rest.dropWhile fun b => !isTerminator b with
    | nil => exact Or.inl rfl
    | cons b tail =>
      rw [hd] at hhead
      exact Or.inr (by simpa [isTerminator] using hhead)

/-- `read_name` accepts exactly a component that ends at a boundary. -/
theorem readName_eq_ok_iff {bytes rest v : Bytes} {i j : ℕ} (h : At bytes i rest) :
    readName bytes i = .ok (v, j) ↔
      ∃ text tail, rest = text ++ tail ∧ Spells text v ∧ Boundary tail ∧ j = i + text.length := by
  constructor
  · intro hok
    unfold readName at hok
    split_ifs at hok with hq
    · obtain ⟨rest, rfl⟩ : ∃ r, rest = backtick :: r := by
        rw [h.getElem?] at hq
        cases rest with
        | nil => simp at hq
        | cons c r => exact ⟨r, by simpa using hq⟩
      simp only [bind_eq_ok, refuse_eq_ok, pure_eq_ok, ok.injEq, Prod.exists,
        exists_const, Prod.mk.injEq] at hok
      obtain ⟨out, k, hquoted, hend, rfl, rfl⟩ := hok
      obtain ⟨w, tail, rfl, htail, hw, rfl⟩ := exists_of_readQuoted h.tail hquoted
      rw [nil_append] at hw
      have h1 := h.tail.advance.tail
      rw [h1.getElem?, any_not_isTerminator_iff, not_not] at hend
      refine ⟨quote w, tail, by simp [quote], hw ▸ .quoted w, hend, ?_⟩
      simp only [quote, length_cons, length_append, length_nil]
      omega
    · simp only [bind_eq_ok, pure_eq_ok, ok.injEq, Prod.mk.injEq] at hok
      obtain ⟨name, hname, rfl, rfl⟩ := hok
      rw [scanWhile_at h] at hname ⊢
      obtain ⟨hlen, tail, htail⟩ := (slice_eq_ok_iff h).mp hname
      obtain ⟨hslash, hb⟩ := takeWhile_dropWhile_boundary rest
      have hsplit : rest.takeWhile (fun b => !isTerminator b) ++
          rest.dropWhile (fun b => !isTerminator b) = rest := takeWhile_append_dropWhile
      obtain ⟨rfl, rfl⟩ := append_inj (htail.symm.trans hsplit.symm) hlen
      refine ⟨_, _, hsplit.symm, .raw hslash ?_, hb, rfl⟩
      intro hhead
      apply hq
      rw [h.getElem?, ← hsplit, head?_append, hhead]
      rfl
  · rintro ⟨text, tail, rfl, hspells, hb, rfl⟩
    cases hspells with
    | quoted =>
      have h1 : At bytes i (backtick :: (doubleBackticks v ++ backtick :: tail)) := by
        simpa [quote] using h
      have hend : ¬(bytes[i + 1 + (doubleBackticks v).length + 1]?.any
          fun b => !isTerminator b) = true := by
        rw [h1.tail.advance.tail.getElem?, any_not_isTerminator_iff, not_not]
        exact hb
      have hlen : i + (quote v).length = i + 1 + (doubleBackticks v).length + 1 := by
        simp only [quote, length_cons, length_append, length_nil]
        omega
      rw [readName, if_pos (by rw [h1.getElem?, head?_cons]),
        readQuoted_doubleBackticks v h1.tail hb.head?_ne, hlen]
      simp only [ok_bind, refuse_of_not _ hend, pure_eq_ok, nil_append]
    | raw noSlash head =>
      have hscan : scanWhile (fun b => !isTerminator b) bytes i = i + v.length := by
        rw [scanWhile_at h, takeWhile_append_boundary noSlash hb]
      have hraw : ¬bytes[i]? = some backtick := by
        rw [h.getElem?, head?_append]
        cases v with
        | nil => simpa using hb.head?_ne
        | cons c v => simpa using head
      simp only [readName, if_neg hraw, hscan, slice_at h, ok_bind, pure_eq_ok]

/-! ## Kinds -/

theorem isPlainIdentifier_eq : ∀ bytes : Bytes, isPlainIdentifier bytes = isUriKind bytes
  | [] => rfl
  | b :: bs => by
    by_cases hb : isAsciiAlphabetic b
    · simp [isPlainIdentifier, isUriKind, hb]
    · simp [isPlainIdentifier, isUriKind, hb]

theorem isAsciiAlphanumeric_bounds {b : UInt8} (h : (isAsciiAlphanumeric b || b == 0x5f) = true) :
    b.toNat < 128 ∧ b ≠ colon ∧ b ≠ slash := by
  simp only [isAsciiAlphanumeric, isAsciiAlphabetic, Bool.or_eq_true, Bool.and_eq_true,
    decide_eq_true_eq, UInt8.le_iff_toNat_le, beq_iff_eq, ← UInt8.toNat_inj, UInt8.reduceToNat] at h
  have hc : colon.toNat = 58 := rfl
  have hs : slash.toNat = 47 := rfl
  refine ⟨by omega, fun he => ?_, fun he => ?_⟩
  · rw [he] at h
    omega
  · rw [he] at h
    omega

theorem bounds_of_isUriKind : ∀ {kind : Bytes}, isUriKind kind →
    ∀ b ∈ kind, b.toNat < 128 ∧ b ≠ colon ∧ b ≠ slash
  | [], _, b, hb => by simp at hb
  | c :: kind, h, b, hb => by
    simp only [isUriKind, Bool.and_eq_true, all_eq_true] at h
    rcases mem_cons.mp hb with rfl | hb
    · exact isAsciiAlphanumeric_bounds (by simp [isAsciiAlphanumeric, h.1])
    · exact isAsciiAlphanumeric_bounds (h.2 b hb)

theorem ne_nil_of_isUriKind {kind : Bytes} (h : isUriKind kind) : kind ≠ [] := by
  rintro rfl
  simp [isUriKind] at h

theorem valid_of_isUriKind {kind : Bytes} (h : isUriKind kind) : Utf8.Valid kind :=
  Utf8.valid_of_ascii fun b hb => (bounds_of_isUriKind h b hb).1

/-- Before a `:`, `read_kind` reads exactly the kind. -/
theorem readKind_colon_iff {bytes rest kind : Bytes} {i s j : ℕ} (h : At bytes i rest) :
    readKind bytes i s = .ok (kind, j) ∧ bytes[j]? = some colon ↔
      isUriKind kind ∧ ∃ tail, rest = kind ++ colon :: tail ∧ j = i + kind.length := by
  have hscan := @scanWhile_at (fun b => b != colon && b != slash) _ _ _ h
  simp only [readKind, hscan, bind_eq_ok, refuse_eq_ok, pure_eq_ok, ok.injEq, Prod.mk.injEq,
    isPlainIdentifier_eq, not_not, exists_const]
  constructor
  · rintro ⟨⟨k, hk, -, huri, rfl, rfl⟩, hcolon⟩
    obtain ⟨hlen, tail, htail⟩ := (slice_eq_ok_iff h).mp hk
    rw [htail] at h
    rw [← hlen, h.advance.getElem?] at hcolon
    obtain ⟨tail, rfl⟩ : ∃ t, tail = colon :: t := by
      cases tail with
      | nil => simp at hcolon
      | cons c t => exact ⟨t, by simpa using hcolon⟩
    exact ⟨huri, tail, htail, by rw [hlen]⟩
  · rintro ⟨huri, tail, rfl, rfl⟩
    have htake : (kind ++ colon :: tail).takeWhile (fun b => b != colon && b != slash) = kind := by
      rw [takeWhile_append_of_pos fun b hb => by simp [(bounds_of_isUriKind huri b hb).2]]
      simp
    rw [htake]
    refine ⟨⟨kind, slice_at h, ?_, huri, rfl, rfl⟩, by rw [h.advance.getElem?]; rfl⟩
    simpa using ne_nil_of_isUriKind huri

/-! ## Segments -/

/-- One turn of the loop reads exactly one `/kind:name` part. -/
theorem readSegment_spells_iff {bytes rest : Bytes} {i j : ℕ} {seg : Segment} (h : At bytes i rest) :
    readSegment bytes i = .ok (seg, j) ↔
      ∃ text tail, rest = slash :: (seg.kind ++ colon :: (text ++ tail)) ∧ isUriKind seg.kind ∧
        Spells text seg.name ∧ Boundary tail ∧ Utf8.Valid seg.name ∧ At bytes j tail := by
  rw [readSegment_eq_ok_iff]
  constructor
  · rintro ⟨hs, k, hk, hcolon, hn, -, hutf⟩
    obtain ⟨rest, rfl⟩ : ∃ r, rest = slash :: r := by
      cases rest with
      | nil => simp [index, h.getElem?] at hs
      | cons c r =>
        rw [index_at h] at hs
        exact ⟨r, by rw [ok.inj hs]⟩
    obtain ⟨huri, tail, rfl, rfl⟩ := (readKind_colon_iff h.tail).mp ⟨hk, hcolon⟩
    have h1 := h.tail.advance.tail
    obtain ⟨text, tail, rfl, hspells, hb, rfl⟩ := (readName_eq_ok_iff h1).mp hn
    exact ⟨text, tail, rfl, huri, hspells, hb, hutf, h1.advance⟩
  · rintro ⟨text, tail, rfl, huri, hspells, hb, hutf, hj⟩
    have h1 := h.tail.advance.tail
    have hjeq : j = i + 1 + seg.kind.length + 1 + text.length := by
      have l1 := hj.length
      have l2 := h1.advance.length
      omega
    obtain ⟨hk, hcolon⟩ := (@readKind_colon_iff _ _ seg.kind _ (i + 1) _ h.tail).mpr
      ⟨huri, _, rfl, rfl⟩
    refine ⟨index_at h, _, hk, hcolon, (readName_eq_ok_iff h1).mpr ⟨text, tail, rfl, hspells, hb, hjeq⟩,
      ?_, hutf⟩
    simp [ne_nil_of_isUriKind huri]

theorem readSegments_of_lt {bytes : Bytes} {i : ℕ} (h : i < bytes.length) :
    readSegments bytes i = (readSegment bytes i >>= fun r =>
      readSegments bytes r.2 >>= fun segs => .ok (r.1 :: segs)) := by
  rw [readSegments, if_pos h]
  split
  · next e he => rw [he]; rfl
  · next seg next hs => rw [hs]; rfl

theorem readSegments_nil {bytes : Bytes} {i : ℕ} (h : At bytes i []) :
    readSegments bytes i = .ok [] := by
  have := h.length
  rw [readSegments, if_neg (by simp at this; omega)]

theorem readSegments_of_spells {text : Bytes} {segs : List Segment} (hs : SpellsSegments text segs) :
    ∀ {bytes : Bytes} {i : ℕ}, At bytes i text → (∀ s ∈ segs, Utf8.Valid s.name) →
      readSegments bytes i = .ok segs := by
  induction hs with
  | nil =>
    intro bytes i h _
    exact readSegments_nil h
  | @cons s text rest segs kind name tail ih =>
    intro bytes i h hutf
    have hend := h.tail.advance.tail.advance
    have hseg := (readSegment_spells_iff h).mpr
      ⟨text, rest, rfl, kind, name, tail.boundary, hutf s (by simp), hend⟩
    rw [readSegments_of_lt h.lt, hseg, ok_bind, ih hend fun t ht => hutf t (by simp [ht])]
    rfl

/-- The loop accepts exactly the texts that spell segments, with their names valid. -/
theorem readSegments_eq_ok_iff {bytes rest : Bytes} {i : ℕ} {segs : List Segment}
    (h : At bytes i rest) : readSegments bytes i = .ok segs ↔
      SpellsSegments rest segs ∧ ∀ s ∈ segs, Utf8.Valid s.name := by
  constructor
  · intro hok
    induction segs generalizing i rest with
    | nil =>
      match rest, h with
      | [], _ => exact ⟨.nil, by simp⟩
      | b :: rest, h =>
        rw [readSegments_of_lt h.lt, bind_eq_ok] at hok
        obtain ⟨r, -, hok⟩ := hok
        simp [bind_eq_ok] at hok
    | cons s segs ih =>
      match rest, h with
      | [], h => rw [readSegments_nil h] at hok; cases hok
      | b :: rest, h =>
        rw [readSegments_of_lt h.lt, bind_eq_ok] at hok
        obtain ⟨⟨seg, j⟩, hseg, hok⟩ := hok
        simp only [bind_eq_ok, ok.injEq, cons.injEq] at hok
        obtain ⟨segs', hsegs, rfl, rfl⟩ := hok
        obtain ⟨text, tail, hrest, huri, hname, -, hutf, hj⟩ := (readSegment_spells_iff h).mp hseg
        obtain ⟨htail, hall⟩ := ih hj hsegs
        rw [hrest]
        exact ⟨.cons huri hname htail, by simpa using ⟨hutf, hall⟩⟩
  · rintro ⟨hs, hutf⟩
    exact readSegments_of_spells hs h hutf

end CodeMoniker
