import CodeMoniker.Suppressions

/-!
# Doc comments

`evalRequireDocComment` looks only at the last comment that ends before a header. An earlier one
lies no later in the source, so it attaches only if the last one does (`commentAttachesTo_of_le`), and
the lookup finds a comment whenever there is one (`evalRequireDocComment_eq_some_iff`).
-/

namespace CodeMoniker

open List ByteCodec Suppress

/-! ## Lines of a source -/

/-- The lines that end before an offset. -/
def newlines (source : Bytes) (offset : ℕ) : ℕ := (source.take offset).countP (· = 0x0A)

theorem newlines_mono (source : Bytes) {a b : ℕ} (h : a ≤ b) :
    newlines source a ≤ newlines source b := (take_sublist_take_left h).countP_le

def sourceLineRange (source : Bytes) (start stop : ℕ) : ℕ × ℕ :=
  let s := min start source.length
  let e := max (min stop source.length) s
  let last := if s < e then e - 1 else s
  (1 + newlines source s, 1 + newlines source (min last source.length))

theorem sourceLineRange_fst_mono (source : Bytes) {a b : ℕ} (h : a ≤ b) (a' b' : ℕ) :
    (sourceLineRange source a a').1 ≤ (sourceLineRange source b b').1 :=
  Nat.add_le_add_left (newlines_mono source (min_le_min_right _ h)) 1

/-! ## The lookup -/

/-- The number of entries that meet `p`, all of which come first. -/
def partitionPoint {α : Type} (p : α → Bool) (l : List α) : ℕ := (l.takeWhile p).length

namespace CodeGraph

variable (g : CodeGraph)

def commentEndBytes : List ℕ :=
  ((g.defs.filter (·.kind = kindComment)).filterMap fun d =>
    d.position.map (·.2.toNat)).mergeSort

/-- One turn of the loop of `doc_anchors_by_def`. -/
def docAnchorStep (m : AList fun _ : ℕ => ℕ) (r : RefRecord) : AList fun _ : ℕ => ℕ :=
  if r.kind = byteString "annotates" then
    match r.position with
    | none => m
    | some (start, _) =>
      match m.lookup r.source with
      | none => m.insert r.source start.toNat
      | some current => if start.toNat < current then m.insert r.source start.toNat else m
  else m

def docAnchorsByDef : AList fun _ : ℕ => ℕ := g.refs.foldl docAnchorStep ∅

def commentAttachesTo (source : Bytes) (commentEnd headerStart : ℕ) : Bool :=
  if headerStart < commentEnd then false
  else
    let lastCommentByte := commentEnd - 1
    let cl := (sourceLineRange source lastCommentByte (lastCommentByte + 1)).1
    let hl := (sourceLineRange source headerStart (headerStart + 1)).1
    hl = cl || hl = cl + 1

/-- Where the annotations of a definition start, or the definition itself. -/
def headerStart (d : DefRecord) (defIdx : ℕ) : Option ℕ :=
  d.position.map fun (defStart, _) =>
    ((g.docAnchorsByDef.lookup defIdx).map (min · defStart.toNat)).getD defStart.toNat

/-- The rules ask for a comment on definitions of this visibility. -/
def asksForDoc (requireDocForVis : Option Bytes) (d : DefRecord) : Bool :=
  requireDocForVis.any fun filter =>
    filter = byteString "any" || filter = if Utf8.Valid d.visibility then d.visibility else []

def evalRequireDocComment (source : Bytes) (requireDocForVis : Option Bytes) (d : DefRecord)
    (defIdx : ℕ) : Option Bool := do
  guard (asksForDoc requireDocForVis d)
  let headerStart ← g.headerStart d defIdx
  let idx := partitionPoint (· ≤ headerStart) g.commentEndBytes
  -- The place before a positive partition point is in range.
  return 0 < idx && (g.commentEndBytes[idx - 1]?).any (commentAttachesTo source · headerStart)

/-- Some comment of the graph ends before the header and attaches to it. -/
def HasDocComment (source : Bytes) (header : ℕ) : Prop :=
  ∃ d ∈ g.defs, d.kind = kindComment ∧ ∃ span, d.position = some span ∧
    span.2.toNat ≤ header ∧ commentAttachesTo source span.2.toNat header

variable {g} {source : Bytes} {header : ℕ}

theorem mem_commentEndBytes {e : ℕ} : e ∈ g.commentEndBytes ↔
    ∃ d ∈ g.defs, d.kind = kindComment ∧ ∃ span, d.position = some span ∧ span.2.toNat = e := by
  simp only [commentEndBytes, mem_mergeSort, mem_filterMap, mem_filter,
    decide_eq_true_eq, Option.map_eq_some_iff, and_assoc]

/-- Of two comments before a header, the later one attaches if the earlier one does. -/
theorem commentAttachesTo_of_le {e e' : ℕ} (he : e ≤ e') (hbefore : e' ≤ header)
    (h : commentAttachesTo source e header) : commentAttachesTo source e' header := by
  have hfirst := sourceLineRange_fst_mono source (Nat.sub_le_sub_right he 1) (e - 1 + 1)
    (e' - 1 + 1)
  have hsecond := sourceLineRange_fst_mono source ((Nat.sub_le e' 1).trans hbefore)
    (e' - 1 + 1) (header + 1)
  simp only [commentAttachesTo, if_neg (he.trans hbefore).not_gt, if_neg hbefore.not_gt,
    Bool.or_eq_true, decide_eq_true_eq] at h ⊢
  omega

/-- The lookup in a sorted list, for a property of the greatest entry up to the bound. -/
theorem getElem?_partitionPoint {p : ℕ → Bool} (hp : ∀ e e', e ≤ e' → e' ≤ header → p e → p e') :
    ∀ {l : List ℕ}, l.Pairwise (· ≤ ·) → ((0 < partitionPoint (· ≤ header) l &&
        (l[partitionPoint (· ≤ header) l - 1]?).any p) = true ↔ ∃ e ∈ l, e ≤ header ∧ p e)
  | [], _ => by simp [partitionPoint]
  | a :: l, h => by
    obtain ⟨ha, hl⟩ := pairwise_cons.mp h
    have ih := getElem?_partitionPoint hp hl
    by_cases hle : a ≤ header
    · have hpoint : partitionPoint (· ≤ header) (a :: l) = partitionPoint (· ≤ header) l + 1 := by
        simp [partitionPoint, hle]
      rw [hpoint, Nat.add_sub_cancel, exists_mem_cons_iff, ← ih]
      cases hk : partitionPoint (· ≤ header) l with
      | zero => simp [hle]
      | succ k =>
        -- The entry after the first one lies within the bound too.
        obtain ⟨e, he⟩ := exists_mem_of_length_pos (l := l.takeWhile (· ≤ header))
          (by rw [← partitionPoint, hk]; exact Nat.succ_pos k)
        have hbound : e ≤ header := by simpa using @mem_takeWhile_imp _ (· ≤ header) _ _ he
        have hmem := (takeWhile_sublist _).mem he
        rw [hk] at ih
        refine ⟨fun hfound => Or.inr (by simpa using hfound), ?_⟩
        rintro (⟨-, hpa⟩ | hfound)
        · simpa using ih.mpr ⟨e, hmem, hbound, hp a e (ha e hmem) hbound hpa⟩
        · simpa using hfound
    · have hpoint : partitionPoint (· ≤ header) (a :: l) = 0 := by simp [partitionPoint, hle]
      rw [hpoint]
      refine iff_of_false (by simp) ?_
      rintro ⟨e, he, hbound, -⟩
      rcases mem_cons.mp he with rfl | he
      · exact hle hbound
      · exact hle ((ha e he).trans hbound)

/-- The lookup answers where a comment is asked for, and finds one if and only if there is one. -/
theorem evalRequireDocComment_eq_some_iff {requireDocForVis : Option Bytes} {d : DefRecord}
    {defIdx : ℕ} {found : Bool} :
    g.evalRequireDocComment source requireDocForVis d defIdx = some found ↔
      asksForDoc requireDocForVis d ∧ ∃ header, g.headerStart d defIdx = some header ∧
        (found = true ↔ g.HasDocComment source header) := by
  have hfound : ∀ header, (∃ e ∈ g.commentEndBytes, e ≤ header ∧
      commentAttachesTo source e header) ↔ g.HasDocComment source header := by
    intro header
    simp only [mem_commentEndBytes, HasDocComment]
    constructor
    · rintro ⟨e, ⟨d, hd, hkind, span, hspan, rfl⟩, he⟩
      exact ⟨d, hd, hkind, span, hspan, he⟩
    · rintro ⟨d, hd, hkind, span, hspan, he⟩
      exact ⟨_, ⟨d, hd, hkind, span, hspan, rfl⟩, he⟩
  have hsorted : g.commentEndBytes.Pairwise (· ≤ ·) := pairwise_mergeSort' (· ≤ ·) _
  simp only [evalRequireDocComment, Option.bind_eq_bind, Option.bind_eq_some_iff,
    Option.guard_eq_some', exists_const, Option.pure_def, Option.some.injEq]
  refine and_congr_right fun _ => exists_congr fun header => and_congr_right fun _ => ?_
  rw [← hfound, ← getElem?_partitionPoint (fun _ _ => commentAttachesTo_of_le) hsorted, eq_comm,
    Bool.eq_iff_iff]

end CodeGraph

end CodeMoniker
