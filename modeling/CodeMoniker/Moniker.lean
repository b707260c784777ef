import CodeMoniker.ByteCodec
import CodeMoniker.Utf8

/-!
# Monikers and their binary encoding

A moniker names a symbol : a project and a list of `(kind, name)` segments, kept as one
byte string,

```text
[version u8 = 2]
[project_len u16 LE] [project bytes]
  segment[i] := [kind_len u16 LE] [kind bytes] [name_len u16 LE] [name bytes]
  (repeated until end of buffer)
```

`MonikerBuilder.tryBuild` writes it, `MonikerView.fromEncoded` checks a byte string
against it, and `SegmentIter.next` walks the segments of a checked string without
checking again. `segmentsFrom_ok_iff` says which strings the check accepts, and
`collect_of_at` that the unchecked walk reads the same segments. `Moniker` is a byte
string that the check accepts.
-/

namespace CodeMoniker

open List ByteCodec

/-! ## The layout -/

def version : UInt8 := 2

def headerFixedLen : ℕ := 1 + 2

def maxComponentLen : ℕ := 65535

inductive EncodingError where
  | truncated
  | unknownVersion (v : UInt8)
  | projectOverflow
  | segmentOverflow
  | emptyProject
  | nonUtf8Project
  | nonUtf8SegmentKind
  | nonUtf8SegmentName
  | invalidSegmentKind
  | projectTooLong (len : ℕ)
  | segmentKindTooLong (len : ℕ)
  | segmentNameTooLong (len : ℕ)
  deriving DecidableEq, Repr

def isAsciiAlphabetic (b : UInt8) : Bool :=
  (0x41 ≤ b && b ≤ 0x5a) || (0x61 ≤ b && b ≤ 0x7a)

def isAsciiAlphanumeric (b : UInt8) : Bool :=
  isAsciiAlphabetic b || (0x30 ≤ b && b ≤ 0x39)

def isUriKind : Bytes → Bool
  | [] => false
  | first :: rest =>
    isAsciiAlphabetic first && rest.all fun byte => isAsciiAlphanumeric byte || byte == 0x5f

def readU16 {ε : Type} (buf : Bytes) (off : ℕ) : Except (Stop ε) ℕ := readLE 2 buf off

/-- `value as u16` keeps the two low bytes. -/
def writeU16 (buf : Bytes) (value : ℕ) : Bytes := buf ++ toLE 2 value

structure Segment where
  kind : Bytes
  name : Bytes
  deriving DecidableEq, Repr

/-! ## The builder -/

structure MonikerBuilder where
  project : Bytes
  segments : List Segment
  deriving DecidableEq, Repr

namespace MonikerBuilder

/-- One turn of the segment loop of `try_build`. -/
def pushSegment (buf : Bytes) (s : Segment) : Except (Stop EncodingError) Bytes := do
  refuse (¬Utf8.Valid s.kind) .nonUtf8SegmentKind
  refuse (¬isUriKind s.kind) .invalidSegmentKind
  refuse (¬Utf8.Valid s.name) .nonUtf8SegmentName
  refuse (s.kind.length > maxComponentLen) (.segmentKindTooLong s.kind.length)
  refuse (s.name.length > maxComponentLen) (.segmentNameTooLong s.name.length)
  let buf := writeU16 buf s.kind.length ++ s.kind
  return writeU16 buf s.name.length ++ s.name

/-- The buffer `try_build` fills. The code wraps it without another check. -/
def tryBuild (b : MonikerBuilder) : Except (Stop EncodingError) Bytes := do
  refuse (b.project.isEmpty) .emptyProject
  refuse (¬Utf8.Valid b.project) .nonUtf8Project
  refuse (b.project.length > maxComponentLen) (.projectTooLong b.project.length)
  let buf := writeU16 [version] b.project.length ++ b.project
  b.segments.foldlM pushSegment buf

end MonikerBuilder

/-! ## The view -/

structure MonikerView where
  bytes : Bytes
  projectOff : ℕ
  projectLen : ℕ
  segsOff : ℕ
  deriving DecidableEq, Repr

/-- The two length-prefixed fields at `cursor`, and the place after them. -/
def checkSegment (bytes : Bytes) (cursor : ℕ) : Except (Stop EncodingError) ℕ := do
  refuse (bytes.length < cursor + 2) .segmentOverflow
  let kindLen ← readU16 bytes cursor
  let kindStart := cursor + 2
  let cursor := kindStart + kindLen
  refuse (bytes.length < cursor) .segmentOverflow
  let kind ← slice bytes kindStart cursor
  refuse (¬Utf8.Valid kind) .nonUtf8SegmentKind
  refuse (¬isUriKind kind) .invalidSegmentKind
  refuse (bytes.length < cursor + 2) .segmentOverflow
  let nameLen ← readU16 bytes cursor
  let nameStart := cursor + 2
  let cursor := nameStart + nameLen
  refuse (bytes.length < cursor) .segmentOverflow
  let name ← slice bytes nameStart cursor
  refuse (¬Utf8.Valid name) .nonUtf8SegmentName
  return cursor

variable {bytes : Bytes}

theorem lt_of_checkSegment {cursor next : ℕ}
    (h : checkSegment bytes cursor = .ok next) : cursor < next := by
  simp only [checkSegment, bind_eq_ok, pure_eq_ok, Except.ok.injEq] at h
  obtain ⟨_, -, kindLen, -, _, -, kind, -, _, -, _, -, _, -, nameLen, -, _, -, name, -, _, -, h⟩ := h
  omega

/-- The segment loop of `from_encoded`. -/
def segmentsFrom (bytes : Bytes) (cursor : ℕ) : Except (Stop EncodingError) Unit :=
  if cursor < bytes.length then
    match _h : checkSegment bytes cursor with
    | .error e => .error e
    | .ok next => segmentsFrom bytes next
  else .ok ()
termination_by bytes.length - cursor
decreasing_by
  have := lt_of_checkSegment _h
  omega

namespace MonikerView

def fromEncoded (bytes : Bytes) : Except (Stop EncodingError) MonikerView := do
  refuse (bytes.length < headerFixedLen) .truncated
  let v ← index bytes 0
  refuse (v ≠ version) (.unknownVersion v)
  let projectLen ← readU16 bytes 1
  let projectOff := 3
  let segsOff := projectOff + projectLen
  refuse (bytes.length < segsOff) .projectOverflow
  let project ← slice bytes projectOff (projectOff + projectLen)
  refuse (project.isEmpty) .emptyProject
  refuse (¬Utf8.Valid project) .nonUtf8Project
  segmentsFrom bytes segsOff
  return { bytes, projectOff, projectLen, segsOff }

variable {ε : Type}

/-- The debug assertion is a panic. -/
def fromEncodedUnchecked (bytes : Bytes) : Except (Stop ε) MonikerView := do
  if ¬(bytes.length ≥ headerFixedLen ∧ bytes[0]? = some version) then .error .panic
  let projectLen ← readU16 bytes 1
  let projectOff := 3
  let segsOff := projectOff + projectLen
  return { bytes, projectOff, projectLen, segsOff }

def project (v : MonikerView) : Except (Stop ε) Bytes :=
  slice v.bytes v.projectOff (v.projectOff + v.projectLen)

end MonikerView

structure SegmentIter where
  bytes : Bytes
  cursor : ℕ
  deriving DecidableEq, Repr

namespace SegmentIter

variable {ε : Type}

def next (it : SegmentIter) : Except (Stop ε) (Option (Segment × SegmentIter)) :=
  if it.cursor ≥ it.bytes.length then .ok none
  else do
    let kindLen ← readU16 it.bytes it.cursor
    let kindStart := it.cursor + 2
    let kind ← slice it.bytes kindStart (kindStart + kindLen)
    let nameLenOff := kindStart + kindLen
    let nameLen ← readU16 it.bytes nameLenOff
    let nameStart := nameLenOff + 2
    let name ← slice it.bytes nameStart (nameStart + nameLen)
    return some (⟨kind, name⟩, { it with cursor := nameStart + nameLen })

theorem lt_of_next {it it' : SegmentIter} {s : Segment}
    (h : it.next = (.ok (some (s, it')) : Except (Stop ε) _)) :
    it.cursor < it.bytes.length ∧ it'.bytes = it.bytes ∧ it.cursor < it'.cursor := by
  unfold next at h
  by_cases hc : it.cursor ≥ it.bytes.length
  · simp [hc] at h
  rw [if_neg hc] at h
  simp only [bind_eq_ok, pure_eq_ok, Except.ok.injEq, Option.some.injEq, Prod.mk.injEq] at h
  obtain ⟨kindLen, -, kind, -, nameLen, -, name, -, -, rfl⟩ := h
  exact ⟨by omega, rfl, by simp only; omega⟩

/-- The segments the iterator yields, in order. -/
def collect (it : SegmentIter) : Except (Stop ε) (List Segment) :=
  match _h : (it.next : Except (Stop ε) _) with
  | .error e => .error e
  | .ok none => .ok []
  | .ok (some (s, it')) => do
    let rest ← it'.collect
    return s :: rest
termination_by it.bytes.length - it.cursor
decreasing_by
  obtain ⟨h1, h2, h3⟩ := lt_of_next _h
  rw [h2]
  omega

end SegmentIter

def MonikerView.segments (v : MonikerView) : SegmentIter := ⟨v.bytes, v.segsOff⟩

/-! ## What the layout admits -/

/-- The segments both the builder and the view admit. -/
structure Segment.Admitted (s : Segment) : Prop where
  kindUtf8 : Utf8.Valid s.kind
  uriKind : isUriKind s.kind
  nameUtf8 : Utf8.Valid s.name
  kindLen : s.kind.length ≤ maxComponentLen
  nameLen : s.name.length ≤ maxComponentLen

structure AdmittedProject (project : Bytes) : Prop where
  nonempty : project ≠ []
  utf8 : Utf8.Valid project
  len : project.length ≤ maxComponentLen

def encodeSegment (s : Segment) : Bytes :=
  toLE 2 s.kind.length ++ (s.kind ++ (toLE 2 s.name.length ++ s.name))

def encodeSegments (segs : List Segment) : Bytes := segs.flatMap encodeSegment

def encodeParts (project : Bytes) (segs : List Segment) : Bytes :=
  version :: (toLE 2 project.length ++ (project ++ encodeSegments segs))

@[simp] theorem length_encodeSegment (s : Segment) :
    (encodeSegment s).length = 2 + s.kind.length + 2 + s.name.length := by
  simp only [encodeSegment, length_append, length_toLE]
  omega

theorem at_encodeParts (project : Bytes) (segs : List Segment) :
    At (encodeParts project segs) 1 (toLE 2 project.length ++ (project ++ encodeSegments segs)) :=
  ⟨by simp [encodeParts], rfl⟩

theorem lt_of_le_maxComponentLen {n : ℕ} (h : n ≤ maxComponentLen) : n < 256 ^ 2 :=
  Nat.lt_succ_of_le h

/-! ## The builder writes the layout -/

open MonikerBuilder

theorem pushSegment_eq_ok_iff {buf buf' : Bytes} {s : Segment} :
    pushSegment buf s = .ok buf' ↔ s.Admitted ∧ buf' = buf ++ encodeSegment s := by
  simp only [pushSegment, bind_eq_ok, refuse_eq_ok, pure_eq_ok, Except.ok.injEq,
    writeU16, not_not, not_lt, exists_const]
  constructor
  · rintro ⟨h1, h2, h3, h4, h5, rfl⟩
    exact ⟨⟨h1, h2, h3, h4, h5⟩, by simp [encodeSegment]⟩
  · rintro ⟨⟨h1, h2, h3, h4, h5⟩, rfl⟩
    exact ⟨h1, h2, h3, h4, h5, by simp [encodeSegment]⟩

theorem foldlM_pushSegment_eq_ok_iff : ∀ (segs : List Segment) (buf buf' : Bytes),
    segs.foldlM pushSegment buf = .ok buf' ↔
      (∀ s ∈ segs, s.Admitted) ∧ buf' = buf ++ encodeSegments segs
  | [], buf, buf' => by simp [encodeSegments, eq_comm]
  | s :: segs, buf, buf' => by
    rw [foldlM_cons, bind_eq_ok]
    constructor
    · rintro ⟨mid, hmid, hrest⟩
      obtain ⟨hs, rfl⟩ := pushSegment_eq_ok_iff.mp hmid
      obtain ⟨hsegs, rfl⟩ := (foldlM_pushSegment_eq_ok_iff segs _ _).mp hrest
      exact ⟨by simpa using ⟨hs, hsegs⟩, by simp [encodeSegments]⟩
    · rintro ⟨hall, rfl⟩
      refine ⟨buf ++ encodeSegment s, pushSegment_eq_ok_iff.mpr ⟨hall s (by simp), rfl⟩, ?_⟩
      exact (foldlM_pushSegment_eq_ok_iff segs _ _).mpr
        ⟨fun t ht => hall t (by simp [ht]), by simp [encodeSegments]⟩

theorem tryBuild_eq_ok_iff {b : MonikerBuilder} {bytes : Bytes} : b.tryBuild = .ok bytes ↔
      AdmittedProject b.project ∧ (∀ s ∈ b.segments, s.Admitted) ∧
        bytes = encodeParts b.project b.segments := by
  simp only [tryBuild, bind_eq_ok, refuse_eq_ok, foldlM_pushSegment_eq_ok_iff,
    not_not, not_lt, exists_const, writeU16, List.isEmpty_iff]
  constructor
  · rintro ⟨h1, h2, h3, h4, rfl⟩
    exact ⟨⟨h1, h2, h3⟩, h4, by simp [encodeParts]⟩
  · rintro ⟨⟨h1, h2, h3⟩, h4, rfl⟩
    exact ⟨h1, h2, h3, h4, by simp [encodeParts]⟩

/-! ## The view accepts the layout -/

/-- A check that succeeds has read one admitted segment. -/
theorem checkSegment_eq_ok_iff {bytes rest : Bytes} {cursor next : ℕ} (h : At bytes cursor rest) :
    checkSegment bytes cursor = .ok next ↔ ∃ s tail, s.Admitted ∧ rest = encodeSegment s ++ tail ∧
        next = cursor + (encodeSegment s).length := by
  simp only [checkSegment, bind_eq_ok, refuse_eq_ok, pure_eq_ok, Except.ok.injEq, not_not, not_lt,
    exists_const, readU16]
  constructor
  · rintro ⟨-, kindLen, hkl, -, kind, hk, hutf, huri, -, nameLen, hnl, -, name, hn, hname, rfl⟩
    obtain ⟨hklt, r1, rfl⟩ := (readLE_eq_ok_iff h).mp hkl
    have h1 := h.advance
    rw [length_toLE] at h1
    obtain ⟨rfl, r2, rfl⟩ := (slice_eq_ok_iff h1).mp hk
    have h2 := h1.advance
    obtain ⟨hnlt, r3, rfl⟩ := (readLE_eq_ok_iff h2).mp hnl
    have h3 := h2.advance
    rw [length_toLE] at h3
    obtain ⟨rfl, r4, rfl⟩ := (slice_eq_ok_iff h3).mp hn
    refine ⟨⟨kind, name⟩, r4, ⟨hutf, huri, hname, Nat.le_of_lt_succ hklt, Nat.le_of_lt_succ hnlt⟩,
      by simp [encodeSegment], ?_⟩
    simp only [length_encodeSegment]
    omega
  · rintro ⟨⟨kind, name⟩, tail, ⟨hutf, huri, hname, hkl, hnl⟩, rfl, rfl⟩
    simp only at hutf huri hname hkl hnl
    simp only [encodeSegment, append_assoc] at h
    have h1 := h.advance
    rw [length_toLE] at h1
    have h2 := h1.advance
    have h3 := h2.advance
    rw [length_toLE] at h3
    have hlen := h.length
    simp only [length_append, length_toLE] at hlen
    refine ⟨by omega, kind.length, readLE_at h (lt_of_le_maxComponentLen hkl), by omega, kind,
      slice_at h1, hutf, huri, by omega, name.length, readLE_at h2 (lt_of_le_maxComponentLen hnl),
      by omega, name, slice_at h3, hname, ?_⟩
    simp only [length_encodeSegment]
    omega

theorem segmentsFrom_of_lt {cursor : ℕ} (h : cursor < bytes.length) :
    segmentsFrom bytes cursor = (checkSegment bytes cursor >>= segmentsFrom bytes) := by
  rw [segmentsFrom, if_pos h]
  split
  · next e he => rw [he]; rfl
  · next n hn => rw [hn]; rfl

theorem segmentsFrom_of_end {cursor : ℕ} (h : bytes.length ≤ cursor) :
    segmentsFrom bytes cursor = .ok () := by
  rw [segmentsFrom, if_neg (Nat.not_lt.mpr h)]

theorem segmentsFrom_encodeSegments : ∀ (segs : List Segment) {bytes : Bytes} {cursor : ℕ},
    (∀ s ∈ segs, s.Admitted) → At bytes cursor (encodeSegments segs) →
      segmentsFrom bytes cursor = .ok ()
  | [], bytes, cursor, _, h => by
    have := h.length
    exact segmentsFrom_of_end (by simp [encodeSegments] at this; omega)
  | s :: segs, bytes, cursor, hall, h => by
    have hlen := h.length
    simp only [encodeSegments, flatMap_cons, length_append, length_encodeSegment] at hlen
    rw [segmentsFrom_of_lt (by omega), bind_eq_ok]
    refine ⟨_, (checkSegment_eq_ok_iff h).mpr ⟨s, encodeSegments segs, hall s (by simp), rfl, rfl⟩, ?_⟩
    exact segmentsFrom_encodeSegments segs (fun t ht => hall t (by simp [ht])) h.advance

/-- The segment loop accepts a rest of the buffer exactly when it is made of admitted
segments. -/
theorem segmentsFrom_ok_iff {bytes rest : Bytes} {cursor : ℕ} (h : At bytes cursor rest) :
    segmentsFrom bytes cursor = .ok () ↔
      ∃ segs, (∀ s ∈ segs, s.Admitted) ∧ rest = encodeSegments segs := by
  constructor
  · intro hok
    -- the loop advances, so induct on what is left of the buffer
    induction hn : rest.length using Nat.strong_induction_on generalizing cursor rest with
    | _ n ih =>
      have hlen := h.length
      rcases Nat.lt_or_ge cursor bytes.length with hlt | hge
      · rw [segmentsFrom_of_lt hlt, bind_eq_ok] at hok
        obtain ⟨next, hnext, hok⟩ := hok
        obtain ⟨s, tail, hs, rfl, rfl⟩ := (checkSegment_eq_ok_iff h).mp hnext
        obtain ⟨segs, hsegs, rfl⟩ := ih tail.length
          (by simp only [length_append, length_encodeSegment] at hn; omega) h.advance hok rfl
        exact ⟨s :: segs, by simpa using ⟨hs, hsegs⟩, by simp [encodeSegments]⟩
      · have hnil : rest = [] := eq_nil_of_length_eq_zero (by omega)
        exact ⟨[], by simp, by simp [hnil, encodeSegments]⟩
  · rintro ⟨segs, hall, rfl⟩
    exact segmentsFrom_encodeSegments segs hall h

/-- The strings `from_encoded` accepts, and the offsets it records. -/
theorem fromEncoded_eq_ok_iff {v : MonikerView} : MonikerView.fromEncoded bytes = .ok v ↔
      ∃ project segs, AdmittedProject project ∧ (∀ s ∈ segs, s.Admitted) ∧
        bytes = encodeParts project segs ∧ v = ⟨bytes, 3, project.length, 3 + project.length⟩ := by
  simp only [MonikerView.fromEncoded, bind_eq_ok, refuse_eq_ok, pure_eq_ok, Except.ok.injEq,
    not_not, not_lt, exists_const, readU16, List.isEmpty_iff]
  constructor
  · rintro ⟨hlen, ver, hver, rfl, projectLen, hpl, -, project, hp, hne, hutf, _, hsegs, rfl⟩
    obtain ⟨b, bs, rfl⟩ : ∃ b bs, bytes = b :: bs := by
      cases bytes with
      | nil => simp [headerFixedLen] at hlen
      | cons b bs => exact ⟨b, bs, rfl⟩
    have h0 : At (b :: bs) 0 ([b] ++ bs) := At.zero _
    obtain rfl : b = version := by
      rw [index_at h0] at hver
      exact Except.ok.inj hver
    have h1 : At (version :: bs) 1 bs := h0.advance
    obtain ⟨hlt, r1, rfl⟩ := (readLE_eq_ok_iff h1).mp hpl
    have h3 := h1.advance
    rw [length_toLE] at h3
    obtain ⟨rfl, r2, rfl⟩ := (slice_eq_ok_iff h3).mp hp
    obtain ⟨segs, hall, rfl⟩ := (segmentsFrom_ok_iff h3.advance).mp hsegs
    exact ⟨project, segs, ⟨hne, hutf, Nat.le_of_lt_succ hlt⟩, hall, rfl, rfl⟩
  · rintro ⟨project, segs, ⟨hne, hutf, hlen⟩, hall, rfl, rfl⟩
    have h1 := at_encodeParts project segs
    have h3 := h1.advance
    rw [length_toLE] at h3
    have hl := h1.length
    simp only [length_append, length_toLE] at hl
    exact ⟨by unfold headerFixedLen; omega, version, index_at (At.zero _), rfl, project.length,
      readLE_at h1 (lt_of_le_maxComponentLen hlen), by omega, project, slice_at h3, hne, hutf, (),
      segmentsFrom_encodeSegments segs hall h3.advance, rfl⟩

/-! ## The unchecked walk -/

theorem next_of_at {ε : Type} {bytes tail : Bytes} {cursor : ℕ} {s : Segment} (hs : s.Admitted)
    (h : At bytes cursor (encodeSegment s ++ tail)) :
    (SegmentIter.mk bytes cursor).next = (.ok (some (s, ⟨bytes, cursor + (encodeSegment s).length⟩)) :
      Except (Stop ε) _) := by
  obtain ⟨kind, name⟩ := s
  have hlen := h.length
  simp only [length_append, length_encodeSegment] at hlen
  simp only [encodeSegment, append_assoc] at h
  have h1 := h.advance
  rw [length_toLE] at h1
  have h2 := h1.advance
  have h3 := h2.advance
  rw [length_toLE] at h3
  simp only [SegmentIter.next, readU16]
  rw [if_neg (by omega), readLE_at h (lt_of_le_maxComponentLen hs.kindLen), ok_bind, slice_at h1,
    ok_bind, readLE_at h2 (lt_of_le_maxComponentLen hs.nameLen), ok_bind, slice_at h3]
  simp only [ok_bind, pure_eq_ok, Except.ok.injEq, Option.some.injEq, Prod.mk.injEq, true_and,
    SegmentIter.mk.injEq, length_encodeSegment]
  omega

theorem collect_of_next {ε : Type} {it it' : SegmentIter} {s : Segment}
    (h : it.next = (.ok (some (s, it')) : Except (Stop ε) _)) :
    it.collect = (it'.collect >>= fun rest => .ok (s :: rest) : Except (Stop ε) _) := by
  rw [SegmentIter.collect]
  split
  · next e he => rw [h] at he; cases he
  · next he => rw [h] at he; cases he
  · next s' it'' he =>
    rw [h] at he
    cases he
    rfl

theorem collect_of_end {ε : Type} {it : SegmentIter} (h : it.bytes.length ≤ it.cursor) :
    it.collect = (.ok [] : Except (Stop ε) _) := by
  have hnext : it.next = (.ok none : Except (Stop ε) _) := by simp [SegmentIter.next, h]
  rw [SegmentIter.collect]
  split
  · next e he => rw [hnext] at he; cases he
  · rfl
  · next s' it'' he => rw [hnext] at he; cases he

/-- On admitted segments the unchecked iterator never panics and yields them all. -/
theorem collect_of_at {ε : Type} : ∀ (segs : List Segment) {bytes : Bytes} {cursor : ℕ},
    (∀ s ∈ segs, s.Admitted) → At bytes cursor (encodeSegments segs) →
      (SegmentIter.mk bytes cursor).collect = (.ok segs : Except (Stop ε) _)
  | [], bytes, cursor, _, h => by
    have := h.length
    exact collect_of_end (by simp [encodeSegments] at this; simp only; omega)
  | s :: segs, bytes, cursor, hall, h => by
    rw [collect_of_next (next_of_at (hall s (by simp)) h),
      collect_of_at segs (fun t ht => hall t (by simp [ht])) h.advance]
    rfl

/-- A view of the layout gives back the parts it was made from. -/
theorem view_parts {ε : Type} {project : Bytes} {segs : List Segment}
    (hall : ∀ s ∈ segs, s.Admitted) :
    let v : MonikerView := ⟨encodeParts project segs, 3, project.length, 3 + project.length⟩
    v.project = (.ok project : Except (Stop ε) _) ∧
      v.segments.collect = (.ok segs : Except (Stop ε) _) := by
  have h3 := (at_encodeParts project segs).advance
  rw [length_toLE] at h3
  exact ⟨slice_at h3, collect_of_at segs hall h3.advance⟩

/-! ## The codec -/

theorem tryBuild_encodeParts {project : Bytes} {segs : List Segment} (hp : AdmittedProject project)
    (hs : ∀ s ∈ segs, s.Admitted) : (mk project segs).tryBuild = .ok (encodeParts project segs) :=
  tryBuild_eq_ok_iff.mpr ⟨hp, hs, rfl⟩

/-- The codec is a bijection between the builders `try_build` accepts and the byte
strings `from_encoded` accepts. The view of a built moniker has the builder's project
and segments, in order and without a panic; every accepted byte string is the output of
`try_build` on its own project and segments; and two builders with one output are
equal. -/
theorem tryBuild_fromEncoded_bijection :
    (∀ (b : MonikerBuilder) (bytes : Bytes), b.tryBuild = .ok bytes →
      ∃ v, MonikerView.fromEncoded bytes = .ok v ∧
        v.project = (.ok b.project : Except (Stop Empty) _) ∧
        v.segments.collect = (.ok b.segments : Except (Stop Empty) _)) ∧
    (∀ (bytes : Bytes) (v : MonikerView), MonikerView.fromEncoded bytes = .ok v →
      ∃ b : MonikerBuilder, v.project = (.ok b.project : Except (Stop Empty) _) ∧
        v.segments.collect = (.ok b.segments : Except (Stop Empty) _) ∧ b.tryBuild = .ok bytes) ∧
    (∀ (b b' : MonikerBuilder) (bytes : Bytes),
      b.tryBuild = .ok bytes → b'.tryBuild = .ok bytes → b = b') := by
  have build : ∀ (b : MonikerBuilder) (bytes : Bytes), b.tryBuild = .ok bytes →
      ∃ v, MonikerView.fromEncoded bytes = .ok v ∧
        v.project = (.ok b.project : Except (Stop Empty) _) ∧
        v.segments.collect = (.ok b.segments : Except (Stop Empty) _) := by
    intro b bytes h
    obtain ⟨hp, hs, rfl⟩ := tryBuild_eq_ok_iff.mp h
    exact ⟨_, fromEncoded_eq_ok_iff.mpr ⟨_, _, hp, hs, rfl, rfl⟩, view_parts hs⟩
  refine ⟨build, ?_, ?_⟩
  · intro bytes v h
    obtain ⟨project, segs, hp, hs, rfl, rfl⟩ := fromEncoded_eq_ok_iff.mp h
    obtain ⟨h1, h2⟩ := view_parts hs
    exact ⟨⟨project, segs⟩, h1, h2, tryBuild_encodeParts hp hs⟩
  · rintro ⟨p, ss⟩ ⟨p', ss'⟩ bytes h h'
    obtain ⟨v, hv, hp, hs⟩ := build _ _ h
    obtain ⟨v', hv', hp', hs'⟩ := build _ _ h'
    obtain rfl : v = v' := Except.ok.inj (hv.symm.trans hv')
    obtain rfl : p = p' := Except.ok.inj (hp.symm.trans hp')
    obtain rfl : ss = ss' := Except.ok.inj (hs.symm.trans hs')
    rfl

/-! ## Monikers -/

/-- An encoded moniker. The only ways to make one are `from_encoded`, which checks the
bytes, and the builder, whose bytes pass the check. -/
structure Moniker where
  bytes : Bytes
  accepted : ∃ v, MonikerView.fromEncoded bytes = .ok v
  deriving DecidableEq

namespace Moniker

theorem ext_bytes {m m' : Moniker} (h : m.bytes = m'.bytes) : m = m' := by
  cases m
  cases m'
  simpa using h

def fromEncoded (bytes : Bytes) : Except (Stop EncodingError) Moniker :=
  match h : MonikerView.fromEncoded bytes with
  | .ok v => .ok ⟨bytes, v, h⟩
  | .error e => .error e

def asView {ε : Type} (m : Moniker) : Except (Stop ε) MonikerView :=
  MonikerView.fromEncodedUnchecked m.bytes

theorem fromEncoded_bytes (m : Moniker) : fromEncoded m.bytes = .ok m := by
  obtain ⟨v, hv⟩ := m.accepted
  unfold fromEncoded
  split
  · rfl
  · next e he => rw [hv] at he; cases he

theorem bytes_of_fromEncoded {m : Moniker} (h : fromEncoded bytes = .ok m) : m.bytes = bytes := by
  unfold fromEncoded at h
  split at h
  · cases h
    rfl
  · cases h

def ofParts (project : Bytes) (segs : List Segment) (hp : AdmittedProject project)
    (hs : ∀ s ∈ segs, s.Admitted) : Moniker :=
  ⟨encodeParts project segs, _, fromEncoded_eq_ok_iff.mpr ⟨_, _, hp, hs, rfl, rfl⟩⟩

theorem exists_parts (m : Moniker) : ∃ project segs, ∃ (hp : AdmittedProject project)
    (hs : ∀ s ∈ segs, s.Admitted), m = ofParts project segs hp hs := by
  obtain ⟨v, hv⟩ := m.accepted
  obtain ⟨project, segs, hp, hs, hb, -⟩ := fromEncoded_eq_ok_iff.mp hv
  exact ⟨project, segs, hp, hs, ext_bytes hb⟩

/-- The unchecked view of a moniker is the checked one. -/
theorem asView_ofParts {ε : Type} {project : Bytes} {segs : List Segment}
    (hp : AdmittedProject project) (hs : ∀ s ∈ segs, s.Admitted) :
    (ofParts project segs hp hs).asView =
      (.ok ⟨encodeParts project segs, 3, project.length, 3 + project.length⟩ :
        Except (Stop ε) _) := by
  have h1 := at_encodeParts project segs
  have hl := h1.length
  simp only [length_append, length_toLE] at hl
  have hlen : (encodeParts project segs).length ≥ headerFixedLen := by
    unfold headerFixedLen
    omega
  have hver : (encodeParts project segs)[0]? = some version := rfl
  simp only [asView, ofParts, MonikerView.fromEncodedUnchecked, hlen, hver, and_self,
    not_true_eq_false, if_false, readU16, readLE_at h1 (lt_of_le_maxComponentLen hp.len)]
  rfl

end Moniker

/-- `try_build` with its buffer wrapped as a moniker. -/
def MonikerBuilder.tryMoniker (b : MonikerBuilder) : Except (Stop EncodingError) Moniker :=
  match h : b.tryBuild with
  | .ok bytes => .ok ⟨bytes, by
      obtain ⟨hp, hs, rfl⟩ := tryBuild_eq_ok_iff.mp h
      exact ⟨_, fromEncoded_eq_ok_iff.mpr ⟨_, _, hp, hs, rfl, rfl⟩⟩⟩
  | .error e => .error e

theorem tryMoniker_of_tryBuild {b : MonikerBuilder} {m : Moniker} (h : b.tryBuild = .ok m.bytes) :
    b.tryMoniker = .ok m := by
  unfold tryMoniker
  split
  · next bytes hb =>
    rw [hb] at h
    exact congrArg Except.ok (Moniker.ext_bytes (Except.ok.inj h))
  · next e he => rw [he] at h; cases h

theorem tryMoniker_ofParts {project : Bytes} {segs : List Segment} (hp : AdmittedProject project)
    (hs : ∀ s ∈ segs, s.Admitted) : (mk project segs).tryMoniker.toOption =
      some (.ofParts project segs hp hs) := by
  have hbuild : (mk project segs).tryBuild =
      .ok (Moniker.ofParts project segs hp hs).bytes := tryBuild_encodeParts hp hs
  rw [tryMoniker_of_tryBuild hbuild]
  rfl

theorem tryBuild_of_tryMoniker {b : MonikerBuilder} {m : Moniker} (h : b.tryMoniker = .ok m) :
    b.tryBuild = .ok m.bytes := by
  unfold tryMoniker at h
  split at h
  · next bytes hb =>
    rw [hb]
    cases h
    rfl
  · cases h

end CodeMoniker
