import CodeMoniker.MonikerQuery

/-!
# Relations between monikers

Ancestry is decided on the encoded bytes. A byte prefix never ends inside a segment, so it is
the prefix order of the segments within a project (`isAncestorOf_iff_segments`), and since the
encodings are compared as texts, what lies between two descendants is a descendant
(`isAncestorOf_between`).

`parent` cuts a moniker at a segment count that the view reports in sixteen bits. It removes the
last segment as long as the count is exact (`parentCutsLast_iff`).

`bind_match` compares all the segments but the last as they are and the last by name, with a
rule that depends on the language. It is nevertheless an equivalence on the monikers that have
segments (`bindMatch_laws`).
-/

namespace CodeMoniker

open List Option ByteCodec Moniker

/-! ## The order of texts -/

/-- In the order of texts, what lies between two texts that begin with `p` begins with `p`. -/
theorem prefix_of_between {α : Type} [LT α] [Std.Asymm (· < · : α → α → Prop)]
    [Std.Trichotomous (· < · : α → α → Prop)] :
    ∀ {p x y z : List α}, p <+: x → p <+: z → x ≤ y → y ≤ z → p <+: y
  | [], _, y, _, _, _, _, _ => List.nil_prefix
  | a :: p, x, [], z, hx, _, hxy, _ => by
    obtain ⟨x', rfl⟩ := hx
    exact absurd (nil_lt_cons a (p ++ x')) hxy
  | a :: p, x, b :: y, z, hx, hz, hxy, hyz => by
    obtain ⟨x', rfl⟩ := hx
    obtain ⟨z', rfl⟩ := hz
    rw [cons_append, cons_le_cons_iff] at hxy hyz
    rcases hxy with hab | ⟨rfl, hxy⟩
    · rcases hyz with hba | ⟨rfl, -⟩
      · exact absurd hba (Std.Asymm.asymm a b hab)
      · exact absurd hab (Std.Asymm.asymm b b hab)
    · rcases hyz with haa | ⟨-, hyz⟩
      · exact absurd haa (Std.Asymm.asymm a a haa)
      · have hrest := prefix_of_between (p := p) ⟨x', rfl⟩ ⟨z', rfl⟩ hxy hyz
        exact cons_prefix_cons.mpr ⟨rfl, hrest⟩

/-! ## Ancestry -/

/-- The length before the project keeps a byte prefix from ending inside of it. -/
theorem project_of_encodeParts_prefix {project project' : Bytes} {segs segs' : List Segment}
    (hp : AdmittedProject project) (hp' : AdmittedProject project')
    (h : encodeParts project segs <+: encodeParts project' segs') : project = project' := by
  obtain ⟨rest, h⟩ := h
  simp only [encodeParts, cons_append, append_assoc, cons.injEq, true_and] at h
  obtain ⟨hlen, hrest⟩ := append_inj h (by rw [length_toLE, length_toLE])
  have hlength : project.length = project'.length := toLE_inj (lt_of_le_maxComponentLen hp.len)
    (lt_of_le_maxComponentLen hp'.len) hlen
  exact (append_inj hrest hlength).1

variable {a b : Moniker}

theorem isAncestorOf_iff_bytes : a.isAncestorOf b = true ↔ a.bytes <+: b.bytes := by
  simp only [isAncestorOf, Bool.and_eq_true, decide_eq_true_eq, List.isPrefixOf_iff_prefix]
  refine ⟨And.right, fun h => ⟨?_, h⟩⟩
  obtain ⟨project, segs, hp, hs, rfl⟩ := exists_parts a
  obtain ⟨project', segs', hp', hs', rfl⟩ := exists_parts b
  rw [project_ofParts, project_ofParts]
  exact project_of_encodeParts_prefix hp hp' h

theorem isAncestorOf_iff_segments :
    a.isAncestorOf b = true ↔ a.project = b.project ∧ a.segments <+: b.segments := by
  obtain ⟨project, segs, hp, hs, rfl⟩ := exists_parts a
  obtain ⟨project', segs', hp', hs', rfl⟩ := exists_parts b
  rw [isAncestorOf_ofParts, project_ofParts, project_ofParts, segments_ofParts, segments_ofParts]

theorem isAncestorOf_refl (a : Moniker) : a.isAncestorOf a = true :=
  isAncestorOf_iff_bytes.mpr (prefix_refl _)

theorem isAncestorOf_trans {a b c : Moniker} (hab : a.isAncestorOf b = true)
    (hbc : b.isAncestorOf c = true) : a.isAncestorOf c = true :=
  isAncestorOf_iff_bytes.mpr
    ((isAncestorOf_iff_bytes.mp hab).trans (isAncestorOf_iff_bytes.mp hbc))

theorem isAncestorOf_antisymm (hab : a.isAncestorOf b = true)
    (hba : b.isAncestorOf a = true) : a = b := by
  have hab' := isAncestorOf_iff_bytes.mp hab
  have hba' := isAncestorOf_iff_bytes.mp hba
  exact ext_bytes (hab'.eq_of_length (hab'.length_le.antisymm hba'.length_le))

instance isPartialOrder_isAncestorOf :
    IsPartialOrder Moniker fun a b => a.isAncestorOf b = true where
  refl := isAncestorOf_refl
  trans _ _ _ := isAncestorOf_trans
  antisymm _ _ := isAncestorOf_antisymm

/-- The descendants of a moniker are an interval of the byte order. -/
theorem isAncestorOf_between {a x y z : Moniker} (hxy : x.bytes ≤ y.bytes)
    (hyz : y.bytes ≤ z.bytes) (hx : a.isAncestorOf x = true) (hz : a.isAncestorOf z = true) :
    a.isAncestorOf y = true :=
  isAncestorOf_iff_bytes.mpr (prefix_of_between (isAncestorOf_iff_bytes.mp hx)
    (isAncestorOf_iff_bytes.mp hz) hxy hyz)

/-- Ancestry is the prefix order of the segments of one project, and in the order of the
encodings the descendants of a moniker stand together. -/
theorem ancestry_laws : (∀ a b : Moniker,
      a.isAncestorOf b = true ↔ a.project = b.project ∧ a.segments <+: b.segments) ∧
    (IsPartialOrder Moniker fun a b => a.isAncestorOf b = true) ∧
    (∀ a x y z : Moniker, x.bytes ≤ y.bytes → y.bytes ≤ z.bytes → a.isAncestorOf x = true →
      a.isAncestorOf z = true → a.isAncestorOf y = true) :=
  ⟨fun _ _ => isAncestorOf_iff_segments, isPartialOrder_isAncestorOf,
    fun _ _ _ _ => isAncestorOf_between⟩

/-! ## Parents -/

/-- `parent` taken `n` times. -/
def parentAfter : ℕ → Moniker → Option Moniker
  | 0, m => some m
  | n + 1, m => m.parent.bind (parentAfter n)

/-- A builder that refuses its parts is a panic of `build`, `none` here. -/
def Moniker.withBareLastSegment (m : Moniker) : Option Moniker :=
  match m.segments.getLast? with
  | none => some m
  | some last =>
    let bare := bareCallableName last.name
    if bare.length = last.name.length then some m
    else (MonikerBuilder.tryMoniker
      ⟨m.project, m.segments.dropLast ++ [⟨last.kind, bare⟩]⟩).toOption

/-- What a parent of a moniker is for. -/
structure ParentCutsLast (m : Moniker) : Prop where
  parent : m.segments ≠ [] → ∃ p, m.parent = some p ∧ p.project = m.project ∧
    p.segments = m.segments.dropLast ∧ p.isAncestorOf m = true
  root : ∃ r, parentAfter m.segments.length m = some r ∧ r.project = m.project ∧ r.segments = []
  beforeRoot : ∀ n < m.segments.length, ∃ p, parentAfter n m = some p ∧ p.segments ≠ []
  bare : m.segments ≠ [] → ∃ last m', m.segments.getLast? = some last ∧
    m.withBareLastSegment = some m' ∧ m'.project = m.project ∧
    m'.segments = m.segments.dropLast ++ [⟨last.kind, bareCallableName last.name⟩]

theorem parent_of_length_lt {m : Moniker} (hne : m.segments ≠ [])
    (hlt : m.segments.length < 2 ^ 16) : ∃ p, m.parent = some p ∧ p.project = m.project ∧
      p.segments = m.segments.dropLast := by
  have hcount : m.segmentCount.toNat = m.segments.length := by
    rw [toNat_segmentCount, Nat.mod_eq_of_lt hlt]
  have hpos : m.segments.length ≠ 0 := fun h => hne (eq_nil_of_length_eq_zero h)
  obtain ⟨p, hp, hproject, hsegments⟩ := parent_eq (hcount ▸ hpos)
  exact ⟨p, hp, hproject, by rw [hsegments, hcount, dropLast_eq_take]⟩

/-- After `n` steps `n` segments are gone. -/
theorem parentAfter_of_length_lt : ∀ {n : ℕ} {m : Moniker}, n ≤ m.segments.length →
    m.segments.length < 2 ^ 16 → ∃ p, parentAfter n m = some p ∧ p.project = m.project ∧
      p.segments.length = m.segments.length - n
  | 0, m, _, _ => ⟨m, rfl, rfl, rfl⟩
  | n + 1, m, hn, hlt => by
    have hne : m.segments ≠ [] := by
      rintro h
      simp [h] at hn
    obtain ⟨p, hp, hproject, hsegments⟩ := parent_of_length_lt hne hlt
    have hlen : p.segments.length = m.segments.length - 1 := by
      rw [hsegments, length_dropLast]
    obtain ⟨q, hq, hq', hlen'⟩ := parentAfter_of_length_lt (n := n) (m := p) (by omega) (by omega)
    refine ⟨q, ?_, hq'.trans hproject, by omega⟩
    rw [parentAfter, hp, bind_some, hq]

/-- The byte of a parenthesis is not part of another character. -/
theorem valid_bareCallableName {name : Bytes} (h : Utf8.Valid name) :
    Utf8.Valid (bareCallableName name) := by
  have hsplit : bareCallableName name ++ name.dropWhile (· ≠ 0x28) = name :=
    takeWhile_append_dropWhile
  cases hrest : name.dropWhile (· ≠ 0x28) with
  | nil =>
    rw [hrest, append_nil] at hsplit
    rwa [hsplit]
  | cons b rest =>
    have hb : b = 0x28 := by
      have hne : name.dropWhile (· ≠ 0x28) ≠ [] := hrest ▸ cons_ne_nil b rest
      have hhead := head_dropWhile_not _ hne
      simp only [hrest, head_cons] at hhead
      simpa using hhead
    rw [hrest, hb] at hsplit
    rw [← hsplit] at h
    exact ((Utf8.valid_append_cons_iff (by decide)).mp h).1

theorem length_bareCallableName_le (name : Bytes) : (bareCallableName name).length ≤ name.length :=
  (List.takeWhile_prefix _).length_le

theorem withBareLastSegment_eq {m : Moniker} (hne : m.segments ≠ []) :
    ∃ last m', m.segments.getLast? = some last ∧ m.withBareLastSegment = some m' ∧
      m'.project = m.project ∧
      m'.segments = m.segments.dropLast ++ [⟨last.kind, bareCallableName last.name⟩] := by
  obtain ⟨project, segs, hp, hs, rfl⟩ := exists_parts m
  rw [segments_ofParts] at hne
  obtain ⟨init, last, rfl⟩ := eq_nil_or_concat' segs |>.resolve_left hne
  have hlast : last.Admitted := hs last (by simp)
  rw [withBareLastSegment, segments_ofParts, project_ofParts,
    getLast?_append, getLast?_singleton, some_or, dropLast_concat]
  refine ⟨last, ?_⟩
  dsimp only
  split_ifs with hlen
  · have hbare : bareCallableName last.name = last.name :=
      (List.takeWhile_prefix _).eq_of_length hlen
    refine ⟨_, rfl, rfl, project_ofParts hp hs, ?_⟩
    rw [segments_ofParts, hbare]
  · have hall : ∀ s ∈ init ++ [⟨last.kind, bareCallableName last.name⟩], s.Admitted := by
      intro s hmem
      rcases mem_append.mp hmem with hmem | hmem
      · exact hs s (mem_append_left _ hmem)
      · rw [mem_singleton.mp hmem]
        exact { hlast with
          nameUtf8 := valid_bareCallableName hlast.nameUtf8
          nameLen := (length_bareCallableName_le last.name).trans hlast.nameLen }
    exact ⟨.ofParts project _ hp hall, rfl, tryMoniker_ofParts hp hall,
      project_ofParts hp hall, segments_ofParts hp hall⟩

/-- From 2^16 segments on the count has wrapped, and `parent` is missing or removes at least 2^16
segments more than the last one. -/
theorem length_lt_of_parentCutsLast {m : Moniker} (h : ParentCutsLast m) :
    m.segments.length < 2 ^ 16 := by
  by_contra hge
  have hne : m.segments ≠ [] := by
    rintro hnil
    simp [hnil] at hge
  obtain ⟨p, hp, -, hdrop, -⟩ := h.parent hne
  obtain ⟨-, -, hcut⟩ := segments_of_parent hp
  have hlen := congrArg List.length (hdrop.symm.trans hcut)
  rw [length_dropLast, length_take, toNat_segmentCount] at hlen
  have hlt := Nat.mod_lt m.segments.length (show 2 ^ 16 > 0 by decide)
  omega

/-- The count `parent` cuts with is exact below 2^16 segments. -/
theorem parentCutsLast_iff (m : Moniker) : ParentCutsLast m ↔ m.segments.length < 2 ^ 16 := by
  constructor
  · exact length_lt_of_parentCutsLast
  · intro hlt
    refine ⟨fun hne => ?_, ?_, fun n hn => ?_, fun hne => withBareLastSegment_eq hne⟩
    · obtain ⟨p, hp, hproject, hsegments⟩ := parent_of_length_lt hne hlt
      refine ⟨p, hp, hproject, hsegments, isAncestorOf_iff_segments.mpr ⟨hproject, ?_⟩⟩
      exact hsegments ▸ dropLast_prefix _
    · obtain ⟨r, hr, hproject, hlen⟩ := parentAfter_of_length_lt le_rfl hlt
      exact ⟨r, hr, hproject, eq_nil_of_length_eq_zero (by omega)⟩
    · obtain ⟨p, hp, -, hlen⟩ := parentAfter_of_length_lt hn.le hlt
      refine ⟨p, hp, fun hnil => ?_⟩
      rw [hnil, length_nil] at hlen
      omega

/-- A chain of `n` segments that are all alike. -/
def chainMoniker (n : ℕ) : Moniker :=
  .ofParts [0x2e] (List.replicate n ⟨[0x61], [0x61]⟩) ⟨by decide, by decide, by decide⟩
    fun s hs => by
      rw [List.eq_of_mem_replicate hs]
      exact ⟨by decide, by decide, by decide, by decide, by decide⟩

theorem length_segments_chainMoniker (n : ℕ) : (chainMoniker n).segments.length = n := by
  rw [chainMoniker, segments_ofParts, length_replicate]

/-- 2^16 segments are counted as none. -/
theorem parent_chainMoniker : (chainMoniker 65536).segments.length = 65536 ∧
    (chainMoniker 65536).parent = none ∧ ¬ParentCutsLast (chainMoniker 65536) := by
  have hlen := length_segments_chainMoniker 65536
  refine ⟨hlen, ?_, fun h => ?_⟩
  · have hcount : (chainMoniker 65536).segmentCount.toNat = 0 := by
      rw [toNat_segmentCount, hlen]
      rfl
    rw [parent, hcount]
    rfl
  · have hlt := length_lt_of_parentCutsLast h
    omega

/-! ## Binding -/

theorem lastSegmentMatch_iff {left right : Moniker} {l r : Bytes} :
    lastSegmentMatch left right l r = true ↔ l = r ∨
      (∃ lang ∈ bareLanguages, left.langSegment = some lang ∧ right.langSegment = some lang) ∧
        bareCallableName l = bareCallableName r := by
  unfold lastSegmentMatch
  split_ifs with hname
  · exact ⟨fun _ => Or.inl hname, fun _ => rfl⟩
  rw [or_iff_right hname]
  cases left.langSegment with
  | none => simp
  | some lang =>
    dsimp only
    split_ifs with hlang
    · rw [decide_eq_true_eq]
      exact ⟨fun h => ⟨⟨lang, hlang.2, rfl, hlang.1.symm⟩, h⟩, And.right⟩
    · constructor
      · intro h
        cases h
      · rintro ⟨⟨lang', hmem, heq, hright⟩, -⟩
        obtain rfl := some.inj heq
        exact absurd ⟨hright.symm, hmem⟩ hlang

/-- The loop passes over equal segments and stops at the last ones. -/
theorem bindSegments_iff {left right : Moniker} : ∀ {l r : Segment} {ls rs : List Segment},
    bindSegments left right l r ls rs = true ↔ ∃ init l' r', l :: ls = init ++ [l'] ∧
      r :: rs = init ++ [r'] ∧ lastSegmentMatch left right l'.name r'.name = true
  | l, r, [], [] => by
    constructor
    · intro h
      exact ⟨[], l, r, rfl, rfl, h⟩
    · rintro ⟨init, l', r', hl, hr, h⟩
      cases init with
      | nil =>
        rw [singleton_inj.mp hl, singleton_inj.mp hr]
        exact h
      | cons i init => simp at hl
  | l, r, [], r' :: rs => by
    refine iff_of_false (by simp [bindSegments]) ?_
    rintro ⟨init, l', r'', hl, hr, -⟩
    cases init with
    | nil => simp at hr
    | cons i init => simp at hl
  | l, r, l' :: ls, [] => by
    refine iff_of_false (by simp [bindSegments]) ?_
    rintro ⟨init, l'', r', hl, hr, -⟩
    cases init with
    | nil => simp at hl
    | cons i init => simp at hr
  | l, r, l' :: ls, r' :: rs => by
    rw [bindSegments]
    split_ifs with hne
    · refine iff_of_false id ?_
      rintro ⟨init, l'', r'', hl, hr, -⟩
      cases init with
      | nil => simp at hl
      | cons i init =>
        rw [cons_append, cons.injEq] at hl hr
        exact absurd (hl.1.trans hr.1.symm) hne
    · rw [bindSegments_iff]
      obtain rfl := not_not.mp hne
      constructor
      · rintro ⟨init, l'', r'', hl, hr, h⟩
        exact ⟨l :: init, l'', r'', congrArg (l :: ·) hl, congrArg (l :: ·) hr, h⟩
      · rintro ⟨init, l'', r'', hl, hr, h⟩
        cases init with
        | nil => simp at hl
        | cons i init =>
          rw [cons_append, cons.injEq] at hl hr
          exact ⟨init, l'', r'', hl.2, hr.2, h⟩

theorem bindMatch_iff : a.bindMatch b = true ↔ a.project = b.project ∧
    ∃ init l r, a.segments = init ++ [l] ∧ b.segments = init ++ [r] ∧
      lastSegmentMatch a b l.name r.name = true := by
  unfold bindMatch
  split_ifs with hproject
  · exact iff_of_false (by simp) fun h => hproject h.1
  rw [not_not] at hproject
  split
  · next l ls r rs hl hr =>
    rw [bindSegments_iff, hl, hr]
    exact (and_iff_right hproject).symm
  · next hnone =>
    refine iff_of_false (by simp) ?_
    rintro ⟨-, init, l, r, hl, hr, -⟩
    obtain ⟨l', ls, hl'⟩ := exists_cons_of_ne_nil (l := a.segments) (by simp [hl])
    obtain ⟨r', rs, hr'⟩ := exists_cons_of_ne_nil (l := b.segments) (by simp [hr])
    exact absurd hr' (hnone l' ls r' rs hl')

/-- The name of the first lang segment. -/
def langAmong (segs : List Segment) : Option Bytes :=
  (segs.find? fun s => s.kind = Utf8.encode "lang".toList).map (·.name)

theorem langSegment_eq {m : Moniker} {init : List Segment} {last : Segment}
    (h : m.segments = init ++ [last]) : m.langSegment = (langAmong init).or (langAmong [last]) := by
  rw [langSegment, h, find?_append, map_or]
  rfl

theorem name_of_langAmong_singleton {s : Segment} {lang : Bytes}
    (h : langAmong [s] = some lang) : s.name = lang := by
  obtain ⟨t, ht, rfl⟩ := map_eq_some_iff.mp h
  rw [mem_singleton.mp (mem_of_find?_eq_some ht)]

/-- What `bind_match` compares of the last name, behind the segments `init`. -/
def boundName (init : List Segment) (name : Bytes) : Bytes :=
  if ∃ lang ∈ bareLanguages, langAmong init = some lang then bareCallableName name else name

/-- The project, the segments before the last and the name the last one binds by. -/
def bindKey (m : Moniker) : Option (Bytes × List Segment × Bytes) :=
  m.segments.getLast?.map fun last =>
    (m.project, m.segments.dropLast, boundName m.segments.dropLast last.name)

/-- Names that are not equal match by a lang segment before the last one : two last segments that
are lang segments of one language have equal names. -/
theorem lastSegmentMatch_iff_boundName {init : List Segment} {l r : Segment}
    (ha : a.segments = init ++ [l]) (hb : b.segments = init ++ [r]) :
    lastSegmentMatch a b l.name r.name = true ↔ boundName init l.name = boundName init r.name := by
  rw [lastSegmentMatch_iff, langSegment_eq ha, langSegment_eq hb, boundName, boundName]
  cases hlang : langAmong init with
  | none =>
    simp only [none_or, reduceCtorEq, and_false, exists_false, if_false]
    refine or_iff_left_of_imp ?_
    rintro ⟨⟨lang, -, hl, hr⟩, -⟩
    exact (name_of_langAmong_singleton hl).trans (name_of_langAmong_singleton hr).symm
  | some lang =>
    simp only [some_or, Option.some.injEq, and_self, exists_eq_right']
    split_ifs with hbare
    · simp only [hbare, true_and]
      exact or_iff_right_of_imp fun h => congrArg bareCallableName h
    · simp only [hbare, false_and, or_false]

theorem bindMatch_iff_bindKey :
    a.bindMatch b = true ↔ ∃ key, bindKey a = some key ∧ bindKey b = some key := by
  rw [bindMatch_iff]
  constructor
  · rintro ⟨hproject, init, l, r, ha, hb, h⟩
    rw [lastSegmentMatch_iff_boundName ha hb] at h
    refine ⟨(a.project, init, boundName init l.name), ?_, ?_⟩
    · simp [bindKey, ha]
    · simp [bindKey, hb, hproject, h]
  · rintro ⟨key, ha, hb⟩
    obtain ⟨l, hl, rfl⟩ := map_eq_some_iff.mp ha
    obtain ⟨r, hr, hkey⟩ := map_eq_some_iff.mp hb
    simp only [Prod.mk.injEq] at hkey
    obtain ⟨hproject, hinit, hname⟩ := hkey
    have ha' := dropLast_append_getLast? l hl
    have hb' := dropLast_append_getLast? r hr
    rw [hinit] at hname hb'
    exact ⟨hproject.symm, a.segments.dropLast, l, r, ha'.symm, hb'.symm,
      (lastSegmentMatch_iff_boundName ha'.symm hb'.symm).mpr hname.symm⟩

theorem bindMatch_symm (h : a.bindMatch b = true) : b.bindMatch a = true := by
  obtain ⟨key, ha, hb⟩ := bindMatch_iff_bindKey.mp h
  exact bindMatch_iff_bindKey.mpr ⟨key, hb, ha⟩

theorem bindMatch_comm (a b : Moniker) : a.bindMatch b = b.bindMatch a :=
  Bool.eq_iff_iff.mpr ⟨bindMatch_symm, bindMatch_symm⟩

theorem bindMatch_trans {a b c : Moniker} (hab : a.bindMatch b = true)
    (hbc : b.bindMatch c = true) : a.bindMatch c = true := by
  obtain ⟨key, ha, hb⟩ := bindMatch_iff_bindKey.mp hab
  obtain ⟨key', hb', hc⟩ := bindMatch_iff_bindKey.mp hbc
  obtain rfl := some.inj (hb.symm.trans hb')
  exact bindMatch_iff_bindKey.mpr ⟨key, ha, hc⟩

theorem bindMatch_refl {a : Moniker} (h : a.segments ≠ []) : a.bindMatch a = true := by
  rw [bindMatch_iff_bindKey, bindKey, getLast?_eq_some_getLast h]
  exact ⟨_, rfl, rfl⟩

/-- The generic test of the linkage. -/
def genericMatches (target candidate : Moniker) : Bool :=
  candidate.bindMatch target || target.bindMatch candidate

theorem genericMatches_eq (target candidate : Moniker) :
    genericMatches target candidate = target.bindMatch candidate := by
  rw [genericMatches, bindMatch_comm candidate, Bool.or_self]

/-- `bind_match` is symmetric, says what its parts say and is transitive, so the generic test of
the linkage is an equivalence. -/
theorem bindMatch_laws : (∀ a b : Moniker, a.bindMatch b = b.bindMatch a) ∧
    (∀ a b : Moniker, a.bindMatch b = true ↔
      a.project = b.project ∧ a.segments.length = b.segments.length ∧
        a.segments.dropLast = b.segments.dropLast ∧
        ∃ l r, a.segments.getLast? = some l ∧ b.segments.getLast? = some r ∧ (l.name = r.name ∨
            (∃ lang ∈ bareLanguages, a.langSegment = some lang ∧ b.langSegment = some lang) ∧
              bareCallableName l.name = bareCallableName r.name)) ∧
    (∀ a b c : Moniker, a.bindMatch b = true → b.bindMatch c = true → a.bindMatch c = true) ∧
    Equivalence fun a b : {m : Moniker // m.segments ≠ []} => genericMatches a.1 b.1 = true := by
  refine ⟨bindMatch_comm, fun a b => ?_, fun _ _ _ => bindMatch_trans, ?_⟩
  · rw [bindMatch_iff]
    refine and_congr_right fun _ => ?_
    constructor
    · rintro ⟨init, l, r, ha, hb, h⟩
      refine ⟨?_, ?_, l, r, ?_, ?_, lastSegmentMatch_iff.mp h⟩ <;> simp [ha, hb]
    · rintro ⟨-, hinit, l, r, hl, hr, h⟩
      have ha := dropLast_append_getLast? l hl
      have hb := dropLast_append_getLast? r hr
      exact ⟨a.segments.dropLast, l, r, ha.symm, by rw [hinit, hb], lastSegmentMatch_iff.mpr h⟩
  · simp only [genericMatches_eq]
    exact ⟨fun a => bindMatch_refl a.2, bindMatch_symm, bindMatch_trans⟩

end CodeMoniker
