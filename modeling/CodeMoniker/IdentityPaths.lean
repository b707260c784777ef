import CodeMoniker.IdentityTree
import CodeMoniker.UriContainment

/-!
# The text of an identity

An identity is written as the text of its project and of its segments, and the path of the identity
is what follows the first `/`. The path of a moniker goes on after the path of another with a `/`
exactly when its segments do (`pathText_extends_iff`), so that the queries find below a scope what
is below it (`identityRest_pathText`). The next name is cut at the next `/`, and that may lie in the
quoted name of a segment. What is cut there is the text of no segment (`cutText_ne_segmentText`).
-/

namespace CodeMoniker

open List Option ByteCodec Query

/-! ## Texts -/

abbrev NamedSegment := {s : Segment // s.Admitted}

abbrev Project := {project : Bytes // AdmittedProject project}

def monikerOf (project : Project) (segs : List NamedSegment) : Moniker :=
  .ofParts project.1 (segs.map (·.1)) project.2 fun s hs => by
    obtain ⟨s, -, rfl⟩ := List.mem_map.mp hs
    exact s.2

/-- The text `kind:name` of a segment. -/
def segmentText (s : NamedSegment) : List Char :=
  ((writeSegment [] s.1 : Except (Stop Empty) _).toOption.getD []).tail

def projectText (project : Project) : List Char :=
  (writeName [] project.1 : Except (Stop Empty) _).toOption.getD []

def segmentsText (segs : List NamedSegment) : List Char :=
  segs.flatMap fun s => '/' :: segmentText s

def uriText (project : Project) (segs : List NamedSegment) : List Char :=
  defaultScheme ++ projectText project ++ segmentsText segs

/-- The path of the identity. -/
def pathText (project : Project) (segs : List NamedSegment) : List Char :=
  identityPath (uriText project segs)

/-- What `writeSegment` appends is the text of the segment, and it spells the segment. -/
theorem writeSegment_eq (s : NamedSegment) :
    (∀ out, writeSegment out s.1 = (.ok (out ++ '/' :: segmentText s) : Except (Stop Empty) _)) ∧
      SpellsSegments (Utf8.encode ('/' :: segmentText s)) [s.1] := by
  have hall : ∀ t ∈ [s.1], t.Admitted := fun t ht => mem_singleton.mp ht ▸ s.2
  obtain ⟨text, htext, hspells⟩ := @exists_writeSegments Empty [s.1] hall
  obtain ⟨rest, hrest⟩ := @exists_writeSegments_cons Empty s.1 [] hall
  have hwrite : ∀ out, writeSegment out s.1 = (.ok (out ++ '/' :: rest) : Except (Stop Empty) _) := by
    intro out
    have hout := hrest out
    rw [foldlM_cons] at hout
    obtain ⟨text, hok, hnil⟩ := bind_eq_ok.mp hout
    rw [hok, ← hnil]
    rfl
  have hsame : text = '/' :: rest := by
    simpa using Except.ok.inj ((htext []).symm.trans (hrest []))
  have hsegment : segmentText s = rest := by
    rw [segmentText, hwrite]
    rfl
  rw [hsegment, ← hsame]
  exact ⟨fun out => by rw [hwrite, hsame], hspells⟩

theorem foldlM_writeSegment (segs : List NamedSegment) : ∀ out,
    (segs.map (·.1)).foldlM writeSegment out =
      (.ok (out ++ segmentsText segs) : Except (Stop Empty) _) := by
  induction segs with
  | nil => exact fun out => by simp [segmentsText]
  | cons s segs ih =>
    intro out
    rw [map_cons, foldlM_cons, (writeSegment_eq s).1, ok_bind, ih]
    simp [segmentsText]

theorem writeName_project (project : Project) :
    (∀ out, writeName out project.1 = (.ok (out ++ projectText project) : Except (Stop Empty) _)) ∧
      Spells (Utf8.encode (projectText project)) project.1 := by
  obtain ⟨text, htext, hspells⟩ := @exists_writeName Empty _ project.2.utf8
  have hproject : projectText project = text := by
    rw [projectText, htext]
    rfl
  rw [hproject]
  exact ⟨htext, hspells⟩

theorem toUri_monikerOf (project : Project) (segs : List NamedSegment) :
    toUri (monikerOf project segs) ⟨defaultScheme⟩ =
      (.ok (uriText project segs) : Except (Stop Empty) _) := by
  have hall : ∀ t ∈ segs.map (·.1), t.Admitted := fun t ht => by
    obtain ⟨s, -, rfl⟩ := List.mem_map.mp ht
    exact s.2
  obtain ⟨hproject, hsegments⟩ := @view_parts Empty project.1 (segs.map (·.1)) hall
  simp only [toUri, monikerOf, Moniker.asView_ofParts, ok_bind, hproject, hsegments,
    (writeName_project project).1, foldlM_writeSegment, uriText]

/-- The identity of a record is the text of its moniker. -/
theorem toList_monikerUri (project : Project) (segs : List NamedSegment) :
    (monikerUri defaultScheme (monikerOf project segs)).toList = uriText project segs := by
  rw [monikerUri, toUri_monikerOf]
  exact String.toList_ofList

/-! ## Segments -/

theorem slash_mem_encode {text : List Char} : slash ∈ Utf8.encode text ↔ '/' ∈ text :=
  Utf8.ascii_mem_encode (a := '/') (by decide)

/-- The bytes of a segment are its kind, a `:` and what spells its name. -/
theorem encode_segmentText (s : NamedSegment) : ∃ text,
    Utf8.encode (segmentText s) = s.1.kind ++ colon :: text ∧ Spells text s.1.name := by
  have hspells := (writeSegment_eq s).2
  have hslash : Utf8.encode ('/' :: segmentText s) = slash :: Utf8.encode (segmentText s) := rfl
  rw [hslash] at hspells
  generalize hbytes : slash :: Utf8.encode (segmentText s) = bytes at hspells
  cases hspells with
  | @cons _ text rest _ kind name tail =>
    cases tail
    rw [append_nil] at hbytes
    exact ⟨text, (cons.inj hbytes).2, name⟩

theorem Spells.slash_mem {text value : Bytes} (h : Spells text value) :
    slash ∈ text ↔ slash ∈ value := by
  cases h with
  | raw => exact Iff.rfl
  | quoted =>
    have hne : slash ≠ backtick := by decide
    have hdouble : slash ∈ doubleBackticks value ↔ slash ∈ value := by
      induction value with
      | nil => exact Iff.rfl
      | cons b value ih =>
        rw [doubleBackticks_cons, mem_append, mem_cons, ih]
        split_ifs with hb
        · subst hb
          simp [hne]
        · simp
    simp [quote, hne, hdouble]

/-- The text of a segment has a `/` exactly when its name has one. -/
theorem slash_mem_segmentText {s : NamedSegment} : '/' ∈ segmentText s ↔ slash ∈ s.1.name := by
  obtain ⟨text, htext, hspells⟩ := encode_segmentText s
  have hkind : slash ∉ s.1.kind := fun hmem => (bounds_of_isUriKind s.2.uriKind _ hmem).2.2 rfl
  have hcolon : slash ≠ colon := by decide
  rw [← slash_mem_encode, htext, mem_append, mem_cons, ← hspells.slash_mem]
  simp [hkind, hcolon]

/-- A segment starts with its kind. -/
theorem exists_segmentText_cons (s : NamedSegment) :
    ∃ c rest, segmentText s = c :: rest ∧ c ≠ '/' := by
  obtain ⟨text, htext, -⟩ := encode_segmentText s
  obtain ⟨b, kind, hkind⟩ := exists_cons_of_ne_nil (ne_nil_of_isUriKind s.2.uriKind)
  rw [hkind, cons_append] at htext
  cases hsegment : segmentText s with
  | nil =>
    rw [hsegment] at htext
    exact nomatch htext
  | cons c rest =>
    refine ⟨c, rest, rfl, ?_⟩
    rintro rfl
    rw [hsegment] at htext
    have hb : slash = b := (cons.inj htext).1
    have hbound := bounds_of_isUriKind s.2.uriKind b (hkind ▸ mem_cons_self)
    exact hbound.2.2 hb.symm

theorem segmentText_injective : Function.Injective segmentText := by
  intro s t h
  have hs := (writeSegment_eq s).2
  have ht := (writeSegment_eq t).2
  rw [h] at hs
  have hprefix := hs.isPrefix ht (Or.inl rfl) (append_nil _)
  exact Subtype.ext (cons_prefix_cons.mp hprefix).1

/-- What ends at a `/` in the middle of a segment is the text of no segment. -/
theorem segmentText_ne_append {s t : NamedSegment} {rest : List Char} :
    segmentText s ≠ segmentText t ++ '/' :: rest := by
  intro h
  have hbytes : Utf8.encode ('/' :: segmentText t) ++ Utf8.encode ('/' :: rest) =
      Utf8.encode ('/' :: segmentText s) := by
    rw [h, ← Utf8.encode_append]
    rfl
  have hprefix := (writeSegment_eq t).2.isPrefix (writeSegment_eq s).2 (Or.inr rfl) hbytes
  obtain rfl : t = s := Subtype.ext (cons_prefix_cons.mp hprefix).1
  have hlength := congrArg List.length h
  rw [length_append, length_cons] at hlength
  omega

/-! ## Paths -/

section Paths

variable {project : Project} {p q : List NamedSegment} {s : NamedSegment} {r : List Char}

theorem uriText_append (p more : List NamedSegment) :
    uriText project (p ++ more) = uriText project p ++ segmentsText more := by
  simp [uriText, segmentsText]

theorem segmentsText_cons (s : NamedSegment) (more : List NamedSegment) :
    segmentsText (s :: more) = '/' :: (segmentText s ++ segmentsText more) := by
  simp [segmentsText]

/-- The text of a moniker goes on with a `/` exactly below the moniker. -/
theorem uriText_extends_iff : uriText project q = uriText project p ++ '/' :: r ↔
    ∃ s more, q = p ++ s :: more ∧ r = segmentText s ++ segmentsText more := by
  constructor
  · intro h
    obtain ⟨uri, uri', hp, hq, hiff, -⟩ :=
      toUri_extends_iff_isAncestorOf ⟨defaultScheme⟩ (monikerOf project p) (monikerOf project q)
    obtain rfl := Except.ok.inj ((toUri_monikerOf project p).symm.trans hp)
    obtain rfl := Except.ok.inj ((toUri_monikerOf project q).symm.trans hq)
    have hancestor := hiff.mp (Or.inr ⟨r, by simp [h]⟩)
    obtain ⟨-, more, hmore⟩ := (isAncestorOf_ofParts _ _ _ _).mp hancestor
    obtain ⟨p', more, rfl, hp', rfl⟩ := map_eq_append_iff.mp hmore.symm
    obtain rfl := map_injective_iff.mpr Subtype.val_injective hp'
    rw [uriText_append, append_cancel_left_eq] at h
    cases more with
    | nil => exact nomatch h
    | cons s more =>
      rw [segmentsText_cons] at h
      exact ⟨s, more, rfl, (cons.inj h).2.symm⟩
  · rintro ⟨s, more, rfl, rfl⟩
    rw [uriText_append, segmentsText_cons]

/-- What follows the first part of the project. -/
def afterProject (project : Project) (segs : List NamedSegment) : List Char :=
  (projectText project ++ segmentsText segs).dropWhile (· ≠ '/')

theorem pathText_eq (project : Project) (segs : List NamedSegment) :
    pathText project segs = (afterProject project segs).tail := by
  have hstrip : stripPrefix defaultScheme (uriText project segs) =
      some (projectText project ++ segmentsText segs) := by
    rw [stripPrefix, uriText, append_assoc,
      if_pos (List.isPrefixOf_iff_prefix.mpr (prefix_append _ _)), drop_left]
  rw [pathText, identityPath, hstrip]
  simp only [splitOnce, afterProject]
  cases (projectText project ++ segmentsText segs).dropWhile (· ≠ '/') <;> rfl

/-- The first part of the project is the same in all identities. -/
theorem uriText_eq (project : Project) (segs : List NamedSegment) : uriText project segs =
    defaultScheme ++ (projectText project).takeWhile (· ≠ '/') ++ afterProject project segs := by
  have hhead : (projectText project ++ segmentsText segs).takeWhile (· ≠ '/') =
      (projectText project).takeWhile (· ≠ '/') := by
    rw [takeWhile_append]
    split_ifs with hall
    · have hself := (List.takeWhile_prefix (fun c => decide (c ≠ '/'))).eq_of_length hall
      have hstop : (segmentsText segs).takeWhile (· ≠ '/') = [] := by
        cases segs with
        | nil => rfl
        | cons s segs => rw [segmentsText_cons, takeWhile_cons_of_neg (by simp)]
      rw [hstop, append_nil, hself]
    · rfl
  rw [uriText, append_assoc, append_assoc, ← hhead, afterProject, takeWhile_append_dropWhile]

theorem afterProject_of_ne_nil (h : afterProject project p ≠ []) :
    afterProject project p = '/' :: pathText project p := by
  have hhead := head?_dropWhile_not (fun c => decide (c ≠ '/'))
    (projectText project ++ segmentsText p)
  rw [pathText_eq]
  obtain ⟨c, rest, hcons⟩ := exists_cons_of_ne_nil h
  rw [← afterProject, hcons] at hhead
  rw [hcons]
  have hc : c = '/' := by simpa using hhead
  rw [hc, tail_cons]

/-- The path goes on exactly when the identity does. -/
theorem pathText_extends_iff (h : pathText project p ≠ []) :
    pathText project q = pathText project p ++ '/' :: r ↔
      ∃ s more, q = p ++ s :: more ∧ r = segmentText s ++ segmentsText more := by
  have hp : afterProject project p = '/' :: pathText project p := by
    refine afterProject_of_ne_nil fun hnil => h ?_
    rw [pathText_eq, hnil]
    rfl
  rw [← @uriText_extends_iff project p q r, uriText_eq, uriText_eq, hp, append_assoc,
    append_assoc, append_assoc, append_cancel_left_eq, append_cancel_left_eq]
  constructor
  · intro hq
    rw [afterProject_of_ne_nil, hq]
    · rfl
    · intro hnil
      rw [pathText_eq, hnil] at hq
      simp at hq
  · intro hq
    rw [pathText_eq, hq]
    rfl

/-- What spells a value does not end with a `/`. -/
theorem Spells.getLast?_ne {bytes value : Bytes} (h : Spells bytes value) :
    bytes.getLast? ≠ some slash := by
  intro hlast
  cases h with
  | quoted =>
    rw [quote, ← cons_append, getLast?_concat] at hlast
    exact absurd (some.inj hlast) (by decide)
  | raw noSlash => exact noSlash slash (mem_of_getLast? hlast) rfl

theorem getLast?_encode_append (text : List Char) :
    (Utf8.encode (text ++ ['/'])).getLast? = some slash := by
  rw [Utf8.encode_append]
  exact getLast?_append_of_ne_nil _ (by decide)

/-- The text of a project does not end with a `/`. -/
theorem projectText_ne_append (text : List Char) : projectText project ≠ text ++ ['/'] := by
  intro h
  refine (writeName_project project).2.getLast?_ne ?_
  rw [h, getLast?_encode_append]

/-- Only the root of a project without a `/` has no path. -/
theorem pathText_eq_nil (h : pathText project p = []) : p = [] ∧ '/' ∉ projectText project := by
  rw [pathText_eq] at h
  cases hafter : afterProject project p with
  | nil =>
    have hall := dropWhile_eq_nil_iff.mp hafter
    have hslash : '/' ∉ projectText project ++ segmentsText p := fun hmem => by
      simpa using hall '/' hmem
    rw [mem_append, not_or] at hslash
    refine ⟨?_, hslash.1⟩
    cases p with
    | nil => rfl
    | cons s more => exact absurd (by rw [segmentsText_cons]; simp) hslash.2
  | cons c rest =>
    have hne : afterProject project p ≠ [] := by
      rw [hafter]
      exact cons_ne_nil _ _
    have hend : afterProject project p = ['/'] := by
      rw [afterProject_of_ne_nil hne, pathText_eq, h]
    -- the first `/` would be the last character
    obtain ⟨head, hhead, htext⟩ : ∃ head, '/' ∉ head ∧
        projectText project ++ segmentsText p = head ++ ['/'] := by
      refine ⟨(projectText project ++ segmentsText p).takeWhile (· ≠ '/'), fun hmem => ?_, ?_⟩
      · simpa using mem_takeWhile_imp hmem
      · rw [← hend, afterProject, takeWhile_append_dropWhile]
    cases p with
    | nil => exact absurd (by simpa [segmentsText] using htext) (projectText_ne_append head)
    | cons s more =>
      obtain ⟨c, rest, hsegment, -⟩ := exists_segmentText_cons s
      rw [segmentsText_cons, hsegment] at htext
      have hdrop := congrArg List.dropLast htext
      rw [dropLast_concat, dropLast_append_of_ne_nil (by simp)] at hdrop
      exact absurd (by rw [← hdrop]; simp) hhead

theorem identityRest_eq_some {identity scope : List Char} (h : scope ≠ []) :
    identityRest identity scope = some r ↔ identity = scope ++ '/' :: r := by
  rw [identityRest, if_neg h, stripPrefix]
  constructor
  · intro hrest
    split_ifs at hrest with hprefix
    obtain ⟨tail, rfl⟩ := List.isPrefixOf_iff_prefix.mp hprefix
    rw [drop_left] at hrest
    split at hrest
    · rename_i rest heq
      rw [some.inj heq, some.inj hrest]
    · exact nomatch hrest
  · rintro rfl
    rw [if_pos (List.isPrefixOf_iff_prefix.mpr (prefix_append _ _)), drop_left]
    rfl

theorem pathText_of_root (h : '/' ∉ projectText project) :
    pathText project q = (segmentsText q).tail := by
  have hall : ∀ c ∈ projectText project, decide (c ≠ '/') = true := fun c hc =>
    decide_eq_true fun heq => h (heq ▸ hc)
  rw [pathText_eq, afterProject, dropWhile_append_of_pos hall]
  cases q with
  | nil => rfl
  | cons s q => rw [segmentsText_cons, dropWhile_cons_of_neg (by simp)]

/-- What the queries find below the scope of a moniker is what is below the moniker. -/
theorem identityRest_pathText (hr : r ≠ []) :
    identityRest (pathText project q) (pathText project p) = some r ↔
      ∃ s more, q = p ++ s :: more ∧ r = segmentText s ++ segmentsText more := by
  by_cases hp : pathText project p = []
  · obtain ⟨rfl, hslash⟩ := pathText_eq_nil hp
    rw [hp, identityRest, if_pos rfl, pathText_of_root hslash, Option.some.injEq]
    constructor
    · rintro rfl
      cases q with
      | nil => exact absurd rfl hr
      | cons s more =>
        rw [segmentsText_cons]
        exact ⟨s, more, rfl, rfl⟩
    · rintro ⟨s, more, rfl, rfl⟩
      rw [nil_append, segmentsText_cons, tail_cons]
  · rw [identityRest_eq_some hp, pathText_extends_iff hp]

/-- The path of a child is made from the scope and the text of the segment. -/
theorem scopedIdentity_pathText (p : List NamedSegment) (s : NamedSegment) :
    scopedIdentity (pathText project p) (segmentText s) = pathText project (p ++ [s]) := by
  by_cases hp : pathText project p = []
  · obtain ⟨rfl, hslash⟩ := pathText_eq_nil hp
    rw [scopedIdentity, if_pos hp, pathText_of_root hslash]
    simp [segmentsText]
  · rw [scopedIdentity, if_neg hp]
    exact ((pathText_extends_iff hp).mpr ⟨s, [], rfl, by simp [segmentsText]⟩).symm

end Paths

/-! ## The next name -/

/-- The first segment below a moniker, and the segments after it. -/
def below (p q : List NamedSegment) : Option (NamedSegment × List NamedSegment) :=
  if p <+: q then (q.drop p.length).head?.map fun s => (s, (q.drop p.length).tail) else none

theorem below_eq_some {p q more : List NamedSegment} {s : NamedSegment} :
    below p q = some (s, more) ↔ q = p ++ s :: more := by
  unfold below
  constructor
  · intro h
    split_ifs at h with hprefix
    obtain ⟨tail, rfl⟩ := hprefix
    rw [drop_left] at h
    cases tail with
    | nil => exact nomatch h
    | cons t tail => simpa using h
  · rintro rfl
    rw [if_pos (prefix_append _ _), drop_left]
    rfl

section Next

variable {project : Project} {p q more : List NamedSegment} {s : NamedSegment}

/-- The text up to the next `/`, which the queries take for a name. -/
def cutText (s : NamedSegment) : List Char := (segmentText s).takeWhile (· ≠ '/')

theorem cutText_ne_nil : cutText s ≠ [] := by
  obtain ⟨c, rest, hsegment, hc⟩ := exists_segmentText_cons s
  rw [cutText, hsegment, takeWhile_cons_of_pos (by simpa using hc)]
  exact cons_ne_nil _ _

theorem cutText_eq (h : slash ∉ s.1.name) : cutText s = segmentText s := by
  rw [← slash_mem_segmentText] at h
  exact takeWhile_eq_self_iff.mpr fun c hc => decide_eq_true fun heq => h (heq ▸ hc)

/-- A name that is cut is the text of no segment. -/
theorem cutText_ne_segmentText (h : slash ∈ s.1.name) (t : NamedSegment) :
    cutText s ≠ segmentText t := by
  rw [← slash_mem_segmentText] at h
  intro heq
  have hdrop : (segmentText s).dropWhile (· ≠ '/') ≠ [] := fun hnil => by
    simpa using dropWhile_eq_nil_iff.mp hnil '/' h
  obtain ⟨c, rest, hcons⟩ := exists_cons_of_ne_nil hdrop
  have hhead := head?_dropWhile_not (fun c => decide (c ≠ '/')) (segmentText s)
  rw [hcons] at hhead
  obtain rfl : c = '/' := by simpa using hhead
  refine @segmentText_ne_append s t rest ?_
  rw [← heq, cutText, ← hcons, takeWhile_append_dropWhile]

/-- The text below a scope up to the next `/`. -/
theorem takeWhile_below : (segmentText s ++ segmentsText more).takeWhile (· ≠ '/') = cutText s := by
  rw [takeWhile_append]
  split_ifs with hall
  · have hself := (List.takeWhile_prefix (fun c => decide (c ≠ '/'))).eq_of_length hall
    have hstop : (segmentsText more).takeWhile (· ≠ '/') = [] := by
      cases more with
      | nil => rfl
      | cons t more => rw [segmentsText_cons, takeWhile_cons_of_neg (by simp)]
    rw [hstop, append_nil, cutText, hself]
  · rfl

/-- What the text has after the next `/`. -/
def tailText (s : NamedSegment) (more : List NamedSegment) : Option (List Char) :=
  (splitOnce '/' (segmentText s ++ segmentsText more)).map (·.2)

theorem splitOnce_eq_none_iff {text : List Char} : splitOnce '/' text = none ↔ '/' ∉ text := by
  refine ⟨fun h hmem => ?_, splitOnce_eq_none⟩
  unfold splitOnce at h
  split at h
  · rename_i hdrop
    simpa using dropWhile_eq_nil_iff.mp hdrop '/' hmem
  · exact nomatch h

theorem eq_takeWhile_of_splitOnce {text segment tail : List Char}
    (h : splitOnce '/' text = some (segment, tail)) : segment = text.takeWhile (· ≠ '/') := by
  unfold splitOnce at h
  split at h
  · exact nomatch h
  · exact (Prod.mk.inj (some.inj h)).1.symm

theorem tailText_eq_none : tailText s more = none ↔ slash ∉ s.1.name ∧ more = [] := by
  rw [tailText, map_eq_none_iff, ← slash_mem_segmentText, splitOnce_eq_none_iff, mem_append, not_or]
  refine and_congr_right fun _ => ?_
  cases more with
  | nil => simp [segmentsText]
  | cons t more => simp [segmentsText_cons]

/-- What is read off the text below a scope, when nothing is read off an empty one. -/
theorem bind_identityRest {α : Type} {f : List Char → Option α} (hnil : f [] = none) :
    (identityRest (pathText project q) (pathText project p)).bind f =
      (below p q).bind fun b => f (segmentText b.1 ++ segmentsText b.2) := by
  cases hbelow : below p q with
  | none =>
    refine bind_eq_none_iff.mpr fun r hrest => ?_
    by_cases hr : r = []
    · rw [hr, hnil]
    · obtain ⟨s, more, hq, -⟩ := (identityRest_pathText hr).mp hrest
      rw [below_eq_some.mpr hq] at hbelow
      cases hbelow
  | some b =>
    obtain ⟨c, rest, hsegment, -⟩ := exists_segmentText_cons b.1
    have hne : segmentText b.1 ++ segmentsText b.2 ≠ [] := by simp [hsegment]
    rw [(identityRest_pathText hne).mpr ⟨b.1, b.2, below_eq_some.mp hbelow, rfl⟩]
    rfl

/-- The name that the queries cut below the scope of a moniker. -/
theorem nextSegment_eq {symbol : IndexedSymbol} (hpath : symbol.path = pathText project q) :
    nextSegment (pathText project p) symbol =
      (below p q).map fun b => (cutText b.1, tailText b.1 b.2) := by
  rw [nextSegment, hpath]
  refine (bind_identityRest rfl).trans (Eq.trans ?_ (map_eq_bind ..).symm)
  refine Option.bind_congr fun b _ => ?_
  rw [Function.comp_apply, tailText]
  cases hsplit : splitOnce '/' (segmentText b.1 ++ segmentsText b.2) with
  | some parts =>
    obtain ⟨segment, tail⟩ := parts
    obtain rfl := eq_takeWhile_of_splitOnce hsplit
    dsimp only
    rw [takeWhile_below, if_neg cutText_ne_nil]
    rfl
  | none =>
    have hslash := splitOnce_eq_none_iff.mp hsplit
    have hall : segmentText b.1 ++ segmentsText b.2 = cutText b.1 := by
      rw [← @takeWhile_below b.2 b.1, eq_comm, takeWhile_eq_self_iff]
      exact fun c hc => decide_eq_true fun heq => hslash (heq ▸ hc)
    dsimp only
    rw [hall, if_neg cutText_ne_nil]
    rfl

/-- The child that the graph takes for the one of a symbol. -/
theorem scopeSegment_eq {symbol : IndexedSymbol} (hpath : symbol.path = pathText project q) :
    scopeSegment symbol (pathText project p) =
      (below p q).map fun b => scopedIdentity (pathText project p) (cutText b.1) := by
  rw [scopeSegment, hpath]
  refine (bind_identityRest rfl).trans (Eq.trans ?_ (map_eq_bind ..).symm)
  refine Option.bind_congr fun b _ => ?_
  dsimp only
  rw [takeWhile_below, if_neg cutText_ne_nil, Function.comp_apply]

end Next

end CodeMoniker
