import CodeMoniker.Moniker

/-!
# Queries on monikers

Ancestry and binding of monikers, and path patterns over their segments. The queries read a
moniker through its unchecked view, which yields the parts it was built from
(`Moniker.project_ofParts`, `Moniker.segments_ofParts`).
-/

namespace CodeMoniker

open List ByteCodec Moniker

namespace Moniker

/-- What the view reads as the project. -/
def project (m : Moniker) : Bytes :=
  (do (← m.asView).project : Except (Stop Empty) Bytes).toOption.getD []

/-- What the view iterates over. -/
def segments (m : Moniker) : List Segment :=
  (do (← m.asView).segments.collect : Except (Stop Empty) (List Segment)).toOption.getD []

theorem project_ofParts {project : Bytes} {segs : List Segment} (hp : AdmittedProject project)
    (hs : ∀ s ∈ segs, s.Admitted) : (ofParts project segs hp hs).project = project := by
  have h : MonikerView.project ⟨encodeParts project segs, 3, project.length, 3 + project.length⟩ =
      (.ok project : Except (Stop Empty) _) := (view_parts hs).1
  unfold Moniker.project
  rw [asView_ofParts]
  exact congrArg (fun x => (Except.toOption x).getD []) h

theorem segments_ofParts {project : Bytes} {segs : List Segment} (hp : AdmittedProject project)
    (hs : ∀ s ∈ segs, s.Admitted) : (ofParts project segs hp hs).segments = segs := by
  have h : (MonikerView.segments
      ⟨encodeParts project segs, 3, project.length, 3 + project.length⟩).collect =
      (.ok segs : Except (Stop Empty) _) := (view_parts hs).2
  unfold segments
  rw [asView_ofParts]
  exact congrArg (fun x => (Except.toOption x).getD []) h

def isAncestorOf (m other : Moniker) : Bool :=
  m.project = other.project && m.bytes.isPrefixOf other.bytes

/-- The layout of a segment determines it, so a byte prefix is a prefix of segments. -/
theorem prefix_of_encodeSegments_prefix : ∀ {a b : List Segment}, (∀ s ∈ a, s.Admitted) →
    (∀ s ∈ b, s.Admitted) → encodeSegments a <+: encodeSegments b → a <+: b
  | [], b, _, _, _ => List.nil_prefix
  | s :: a, [], _, _, h => by
    have hlen := h.length_le
    simp only [encodeSegments, flatMap_cons, flatMap_nil, length_append,
      length_encodeSegment, length_nil] at hlen
    omega
  | s :: a, t :: b, ha, hb, ⟨rest, h⟩ => by
    have heq : encodeSegment s ++ (encodeSegments a ++ rest) =
        encodeSegment t ++ encodeSegments b := by
      simpa only [encodeSegments, flatMap_cons, append_assoc] using h
    have hs := next_of_at (ε := Empty) (ha s (by simp))
      (At.zero (encodeSegment s ++ (encodeSegments a ++ rest)))
    have ht := next_of_at (ε := Empty) (hb t (by simp))
      (At.zero (encodeSegment t ++ encodeSegments b))
    rw [heq, ht] at hs
    obtain rfl : t = s := (Prod.mk.inj (Option.some.inj (Except.ok.inj hs))).1
    have hrest : encodeSegments a <+: encodeSegments b := ⟨rest, append_cancel_left heq⟩
    exact cons_prefix_cons.mpr ⟨rfl, prefix_of_encodeSegments_prefix
      (fun u hu => ha u (by simp [hu])) (fun u hu => hb u (by simp [hu])) hrest⟩

theorem segments_prefix_of_isAncestorOf {m other : Moniker} (h : m.isAncestorOf other = true) :
    m.project = other.project ∧ m.segments <+: other.segments := by
  simp only [isAncestorOf, Bool.and_eq_true, decide_eq_true_eq] at h
  obtain ⟨hproject, hbytes⟩ := h
  refine ⟨hproject, ?_⟩
  obtain ⟨project, segs, hp, hs, rfl⟩ := exists_parts m
  obtain ⟨project', segs', hp', hs', rfl⟩ := exists_parts other
  rw [project_ofParts, project_ofParts] at hproject
  subst hproject
  rw [segments_ofParts, segments_ofParts]
  refine prefix_of_encodeSegments_prefix hs hs' ?_
  have hparts : encodeParts project segs <+: encodeParts project segs' :=
    List.isPrefixOf_iff_prefix.mp hbytes
  simpa only [encodeParts, cons_prefix_cons, true_and, prefix_append_right_inj]
    using hparts

theorem ext_segments {m m' : Moniker} (hproject : m.project = m'.project)
    (hsegments : m.segments = m'.segments) : m = m' := by
  obtain ⟨project, segs, hp, hs, rfl⟩ := exists_parts m
  obtain ⟨project', segs', hp', hs', rfl⟩ := exists_parts m'
  rw [project_ofParts, project_ofParts] at hproject
  rw [segments_ofParts, segments_ofParts] at hsegments
  subst hproject hsegments
  rfl

/-- `count() as u16`. -/
def segmentCount (m : Moniker) : UInt16 := UInt16.ofNat m.segments.length

def parent (m : Moniker) : Option Moniker :=
  let n := m.segmentCount.toNat
  if n = 0 then none
  else (MonikerBuilder.tryMoniker ⟨m.project, m.segments.take (n - 1)⟩).toOption

def langSegment (m : Moniker) : Option Bytes :=
  (m.segments.find? fun s => s.kind = Utf8.encode "lang".toList).map (·.name)

end Moniker

theorem toNat_segmentCount (m : Moniker) : m.segmentCount.toNat = m.segments.length % 2 ^ 16 :=
  UInt16.toNat_ofNat'

/-- The builder does not panic. -/
theorem parent_eq {m : Moniker} (h : m.segmentCount.toNat ≠ 0) :
    ∃ p, m.parent = some p ∧ p.project = m.project ∧
      p.segments = m.segments.take (m.segmentCount.toNat - 1) := by
  obtain ⟨project, segs, hp, hs, rfl⟩ := exists_parts m
  have hall : ∀ s ∈ segs.take ((ofParts project segs hp hs).segmentCount.toNat - 1),
      s.Admitted := fun s hs' => hs s (take_subset _ segs hs')
  refine ⟨.ofParts project _ hp hall, ?_, ?_, ?_⟩
  · rw [parent, if_neg h, segments_ofParts, project_ofParts]
    exact tryMoniker_ofParts hp hall
  · rw [project_ofParts, project_ofParts]
  · rw [segments_ofParts, segments_ofParts]

theorem segments_of_parent {m p : Moniker} (h : m.parent = some p) :
    m.segmentCount.toNat ≠ 0 ∧ p.project = m.project ∧
      p.segments = m.segments.take (m.segmentCount.toNat - 1) := by
  have hn : m.segmentCount.toNat ≠ 0 := by
    intro hn
    rw [parent, if_pos hn] at h
    cases h
  obtain ⟨p', hp', hproject, hsegments⟩ := parent_eq hn
  obtain rfl := Option.some.inj (hp'.symm.trans h)
  exact ⟨hn, hproject, hsegments⟩

theorem length_segments_of_parent {m p : Moniker} (h : m.parent = some p) :
    p.segments.length < m.segments.length := by
  obtain ⟨hn, -, hsegments⟩ := segments_of_parent h
  rw [hsegments, length_take]
  have hle := Nat.mod_le m.segments.length (2 ^ 16)
  rw [toNat_segmentCount] at hn ⊢
  omega

/-- A moniker and its ancestors, the nearest first. -/
def selfAndAncestors (m : Moniker) : List Moniker :=
  m :: match _h : m.parent with
    | none => []
    | some parent => selfAndAncestors parent
termination_by m.segments.length
decreasing_by exact length_segments_of_parent _h

theorem isAncestorOf_ofParts {project project' : Bytes} {segs segs' : List Segment}
    (hp : AdmittedProject project) (hs : ∀ s ∈ segs, s.Admitted) (hp' : AdmittedProject project')
    (hs' : ∀ s ∈ segs', s.Admitted) :
    (ofParts project segs hp hs).isAncestorOf (ofParts project' segs' hp' hs') ↔
      project = project' ∧ segs <+: segs' := by
  constructor
  · intro h
    have hsegments := segments_prefix_of_isAncestorOf h
    rwa [project_ofParts, project_ofParts, segments_ofParts, segments_ofParts] at hsegments
  · rintro ⟨rfl, more, rfl⟩
    simp only [isAncestorOf, project_ofParts, decide_true, Bool.true_and]
    refine List.isPrefixOf_iff_prefix.mpr ⟨encodeSegments more, ?_⟩
    simp [ofParts, encodeParts, encodeSegments]

/-! ## Binding -/

/-- The name up to its parameter list. -/
def bareCallableName (name : Bytes) : Bytes := name.takeWhile (· ≠ 0x28)

/-- The languages whose callable names bind without their parameter lists. -/
def bareLanguages : List Bytes :=
  ["sql", "ts", "java", "python", "rs", "go", "cs"].map fun lang => Utf8.encode lang.toList

def lastSegmentMatch (left right : Moniker) (leftName rightName : Bytes) : Bool :=
  if leftName = rightName then true
  else
    match left.langSegment with
    | none => false
    | some lang =>
      if some lang = right.langSegment ∧ lang ∈ bareLanguages then
        bareCallableName leftName = bareCallableName rightName
      else false

/-- The loop of `bind_match`, one segment behind the iterators. -/
def bindSegments (left right : Moniker) : Segment → Segment → List Segment → List Segment → Bool
  | l, r, [], [] => lastSegmentMatch left right l.name r.name
  | l, r, l' :: ls, r' :: rs => if l ≠ r then false else bindSegments left right l' r' ls rs
  | _, _, _, _ => false

def Moniker.bindMatch (m other : Moniker) : Bool :=
  if m.project ≠ other.project then false
  else
    match m.segments, other.segments with
    | l :: ls, r :: rs => bindSegments m other l r ls rs
    | _, _ => false

/-! ## Path patterns -/

/-- A compiled regular expression is the set of texts it matches. -/
abbrev Regex := String → Bool

inductive PatternStep where
  | literal (kind name : Bytes)
  | kindWildcard (kind : Bytes)
  | nameWildcard (name : Bytes)
  | anySegment
  | regex (kind : Option Bytes) (re : Regex)
  | doubleStar

structure PathPattern where
  steps : List PatternStep
  raw : String

/-- One step against one segment. `match_steps` takes `**` before it comes here. -/
def matchStep (step : PatternStep) (seg : Segment) : Bool :=
  match step with
  | .literal kind name => seg.kind = kind && seg.name = name
  | .kindWildcard kind => seg.kind = kind
  | .nameWildcard name => seg.name = name
  | .anySegment => true
  | .regex kind re =>
    (match kind with
      | none => true
      | some kind => seg.kind = kind) &&
    (match Utf8.decode? seg.name with
      | some name => re (String.ofList name)
      | none => false)
  | .doubleStar => false

def matchSteps : List PatternStep → List Segment → Bool
  | [], segs => segs.isEmpty
  | .doubleStar :: rest, segs =>
    (List.range (segs.length + 1)).any fun k => matchSteps rest (segs.drop k)
  | step :: rest, segs =>
    match segs with
    | [] => false
    | seg :: segs => matchStep step seg && matchSteps rest segs

def PathPattern.matches (pattern : PathPattern) (m : Moniker) : Bool :=
  matchSteps pattern.steps m.segments

end CodeMoniker
