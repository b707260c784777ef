import CodeMoniker.Uri

/-!
# What `from_uri` accepts, and the round trips

`SpellsUri` is the grammar of a moniker URI. `fromUri_eq_ok_iff` : `fromUri` accepts
exactly the texts of the grammar, with the moniker they spell. A text is valid UTF-8 and
its components are delimited by ASCII bytes, so every component is valid UTF-8 too
(`Spells.valid`, `SpellsSegments.valid`) and the scanner's own checks never fail.

`toUri` spells a moniker (`exists_toUri`), so `fromUri` reads it back (`fromUri_toUri`),
and `toUri` after `fromUri` is a normal form (`fromUri_grammar`).
-/

namespace CodeMoniker

open List ByteCodec

/-! ## The components of a text are texts -/

theorem valid_of_boundary {text tail : Bytes} (h : Utf8.Valid (text ++ tail)) (hb : Boundary tail) :
    Utf8.Valid text ∧ Utf8.Valid tail := by
  rcases hb with rfl | hb
  · exact ⟨by simpa using h, Utf8.valid_nil⟩
  · obtain ⟨tail, rfl⟩ : ∃ t, tail = slash :: t := by
      cases tail with
      | nil => simp at hb
      | cons c t => exact ⟨t, by simpa using hb⟩
    obtain ⟨h1, h2⟩ := (Utf8.valid_append_cons_iff (by decide)).mp h
    exact ⟨h1, (Utf8.valid_cons_iff (by decide)).mpr h2⟩

/-- Doubling backticks keeps validity in both directions : cut at the first backtick. -/
theorem valid_doubleBackticks_iff {v : Bytes} : Utf8.Valid (doubleBackticks v) ↔ Utf8.Valid v := by
  have hlt : backtick.toNat < 128 := by decide
  induction hn : v.length using Nat.strong_induction_on generalizing v with
  | _ n ih =>
    by_cases hmem : backtick ∈ v
    · obtain ⟨a, b, rfl, ha⟩ := eq_append_cons_of_mem hmem
      have hlen : b.length < n := by
        rw [← hn, length_append, length_cons]
        omega
      have hb : Utf8.Valid (doubleBackticks b) ↔ Utf8.Valid b := ih _ hlen rfl
      rw [doubleBackticks_append, doubleBackticks_of_notMem ha, doubleBackticks_cons, if_pos rfl,
        cons_append, cons_append, nil_append, Utf8.valid_append_cons_iff hlt,
        Utf8.valid_cons_iff hlt, hb, Utf8.valid_append_cons_iff hlt]
    · rw [doubleBackticks_of_notMem hmem]

theorem Spells.valid {text v : Bytes} (h : Spells text v) (ht : Utf8.Valid text) : Utf8.Valid v := by
  rcases h with _ | _
  · rw [quote, Utf8.valid_cons_iff (by decide)] at ht
    exact valid_doubleBackticks_iff.mp ((Utf8.valid_append_cons_iff (by decide)).mp ht).1
  · exact ht

theorem SpellsSegments.valid {text : Bytes} {segs : List Segment} (h : SpellsSegments text segs)
    (ht : Utf8.Valid text) : ∀ s ∈ segs, Utf8.Valid s.name := by
  induction h with
  | nil => simp
  | @cons s text rest segs kind name tail ih =>
    rw [Utf8.valid_cons_iff (by decide)] at ht
    obtain ⟨-, h1⟩ := (Utf8.valid_append_cons_iff (by decide)).mp ht
    obtain ⟨h2, h3⟩ := valid_of_boundary h1 tail.boundary
    intro t hmem
    rcases mem_cons.mp hmem with rfl | hmem
    · exact name.valid h2
    · exact ih h3 t hmem

theorem SpellsSegments.isUriKind {text : Bytes} {segs : List Segment} (h : SpellsSegments text segs) :
    ∀ s ∈ segs, CodeMoniker.isUriKind s.kind := by
  induction h with
  | nil => simp
  | cons kind name tail ih => simpa using ⟨kind, ih⟩

/-! ## Acceptance -/

/-- `uri` is the scheme, a component that spells the project, and parts that spell the
segments; the project is not empty and every component fits a 16-bit length. -/
structure SpellsUri (config : UriConfig) (uri : List Char) (project : Bytes)
    (segs : List Segment) : Prop where
  text : ∃ rest text tail, uri = config.scheme ++ rest ∧ Utf8.encode rest = text ++ tail ∧
    Spells text project ∧ SpellsSegments tail segs
  nonempty : project ≠ []
  projectLen : project.length ≤ maxComponentLen
  segmentLen : ∀ s ∈ segs, s.kind.length ≤ maxComponentLen ∧ s.name.length ≤ maxComponentLen

theorem SpellsUri.admitted {config : UriConfig} {uri : List Char} {project : Bytes}
    {segs : List Segment} (h : SpellsUri config uri project segs) :
    AdmittedProject project ∧ ∀ s ∈ segs, s.Admitted := by
  obtain ⟨rest, text, tail, -, henc, hproject, hsegs⟩ := h.text
  obtain ⟨h1, h2⟩ := valid_of_boundary (henc ▸ Utf8.valid_encode rest) hsegs.boundary
  refine ⟨⟨h.nonempty, hproject.valid h1, h.projectLen⟩, fun s hs => ?_⟩
  have hkind := hsegs.isUriKind s hs
  exact ⟨valid_of_isUriKind hkind, hkind, hsegs.valid h2 s hs, (h.segmentLen s hs).1,
    (h.segmentLen s hs).2⟩

theorem stripScheme_eq_ok_iff {config : UriConfig} {uri rest : List Char} :
    stripScheme config uri = .ok rest ↔ uri = config.scheme ++ rest := by
  unfold stripScheme stripPrefix
  constructor
  · intro h
    split_ifs at h with hp
    obtain ⟨t, rfl⟩ := List.isPrefixOf_iff_prefix.mp hp
    simpa using h
  · rintro rfl
    simp

theorem mapEncodingError_eq_ok_iff {x : Except (Stop EncodingError) Moniker} {m : Moniker} :
    mapEncodingError x = .ok m ↔ x = .ok m := by
  rcases x with (_ | _) | _ <;> simp [mapEncodingError]

/-- `from_uri` accepts exactly the grammar, and returns the moniker it spells. -/
theorem fromUri_eq_ok_iff {uri : List Char} {config : UriConfig} {m : Moniker} :
    fromUri uri config = .ok m ↔
      ∃ project segs, SpellsUri config uri project segs ∧ m.bytes = encodeParts project segs := by
  constructor
  · intro h
    simp only [fromUri, bind_eq_ok] at h
    obtain ⟨rest, hrest, ⟨project, i⟩, hproject, _, hne, _, -, segs, hsegs, hbuild⟩ := h
    obtain ⟨text, tail, henc, hspells, hb, rfl⟩ :=
      (readName_eq_ok_iff (At.zero (Utf8.encode rest))).mp hproject
    have h0 : At (Utf8.encode rest) 0 (text ++ tail) := henc ▸ At.zero _
    obtain ⟨hsegs, -⟩ := (readSegments_eq_ok_iff h0.advance).mp hsegs
    have htry := tryBuild_of_tryMoniker (mapEncodingError_eq_ok_iff.mp hbuild)
    obtain ⟨hp, hs, hbytes⟩ := tryBuild_eq_ok_iff.mp htry
    refine ⟨project, segs, ⟨?_, hp.nonempty, hp.len, fun s h => ⟨(hs s h).kindLen, (hs s h).nameLen⟩⟩,
      hbytes⟩
    exact ⟨rest, text, tail, stripScheme_eq_ok_iff.mp hrest, henc, hspells, hsegs⟩
  · rintro ⟨project, segs, hspells, hbytes⟩
    obtain ⟨hp, hs⟩ := hspells.admitted
    obtain ⟨rest, text, tail, rfl, henc, hproject, hsegs⟩ := hspells.text
    have h0 : At (Utf8.encode rest) 0 (text ++ tail) := henc ▸ At.zero _
    have hname := (readName_eq_ok_iff h0).mpr ⟨text, tail, rfl, hproject, hsegs.boundary, rfl⟩
    have hloop := readSegments_of_spells hsegs h0.advance fun s h => (hs s h).nameUtf8
    have htry : (MonikerBuilder.mk project segs).tryMoniker = .ok m :=
      tryMoniker_of_tryBuild (tryBuild_eq_ok_iff.mpr ⟨hp, hs, hbytes⟩)
    have hne : ¬project.isEmpty = true := by simpa using hp.nonempty
    simp only [fromUri, stripScheme_eq_ok_iff.mpr rfl, ok_bind, hname, hloop, htry,
      refuse_of_not _ hne, refuse_of_not _ (not_not.mpr hp.utf8)]
    rfl

/-! ## No panic -/

theorem noPanic_readQuoted {bytes out : Bytes} {start i : ℕ} :
    NoPanic (readQuoted bytes start i out) := by
  fun_induction readQuoted bytes start i out with
  | case1 i out hlt hb hd ih => exact ih
  | case2 => exact noPanic_ok _
  | case3 i out hlt hb ih => exact ih
  | case4 => exact noPanic_error _

theorem noPanic_slice_scanWhile {ε : Type} {p : UInt8 → Bool} {bytes rest : Bytes} {i : ℕ}
    (h : At bytes i rest) : NoPanic (slice bytes i (scanWhile p bytes i) : Except (Stop ε) _) := by
  have hsplit : rest.takeWhile p ++ rest.dropWhile p = rest := takeWhile_append_dropWhile
  have h1 : At bytes i (rest.takeWhile p ++ rest.dropWhile p) := hsplit.symm ▸ h
  rw [scanWhile_at h, slice_at h1]
  exact noPanic_ok _

variable {bytes rest : Bytes}

theorem noPanic_readName {i : ℕ} (h : At bytes i rest) : NoPanic (readName bytes i) := by
  unfold readName
  split_ifs with hq
  · refine noPanic_readQuoted.bind fun r _ => ?_
    exact (noPanic_refuse _ _).bind fun _ _ => noPanic_ok _
  · exact (noPanic_slice_scanWhile h).bind fun _ _ => noPanic_ok _

theorem noPanic_readKind {i s : ℕ} (h : At bytes i rest) : NoPanic (readKind bytes i s) :=
  (noPanic_slice_scanWhile h).bind fun _ _ => .refuse_bind fun _ => .refuse_bind fun _ => noPanic_ok _

/-- At a `/`, a turn of the loop does not panic : the debug assertion holds. -/
theorem noPanic_readSegment {i : ℕ} (h : At bytes i (slash :: rest)) :
    NoPanic (readSegment bytes i) := by
  unfold readSegment
  rw [index_at h, ok_bind]
  simp only [ne_eq, not_true_eq_false, if_false, pure_eq_ok]
  refine (noPanic_readKind h.tail).bind fun r hr => .refuse_bind fun hcolon => ?_
  obtain ⟨kind, k⟩ := r
  obtain ⟨-, tail, rfl, rfl⟩ := (readKind_colon_iff h.tail).mp ⟨hr, not_not.mp hcolon⟩
  exact (noPanic_readName h.tail.advance.tail).bind fun _ _ =>
    .refuse_bind fun _ => .refuse_bind fun _ => noPanic_ok _

/-- Every turn leaves the scanner at a boundary, so the next one starts at a `/`. -/
theorem noPanic_readSegments {i : ℕ} (h : At bytes i rest)
    (hb : Boundary rest) : NoPanic (readSegments bytes i) := by
  induction hn : rest.length using Nat.strong_induction_on generalizing rest i with
  | _ n ih =>
    match rest, h, hb with
    | [], h, _ =>
      rw [readSegments_nil h]
      exact noPanic_ok _
    | b :: rest, h, hb =>
      obtain rfl : b = slash := by simpa [Boundary] using hb
      rw [readSegments_of_lt h.lt]
      refine (noPanic_readSegment h).bind fun r hr => ?_
      obtain ⟨seg, j⟩ := r
      obtain ⟨text, tail, hrest, -, -, htail, -, hj⟩ := (readSegment_spells_iff h).mp hr
      have hlen : tail.length < n := by
        have := congrArg List.length hrest
        simp only [length_cons, length_append] at this hn
        omega
      exact (ih _ hlen hj htail rfl).bind fun _ _ => noPanic_ok _

/-- The builder reports none of the errors that `from_uri` holds to be unreachable. -/
theorem noPanic_mapEncodingError (b : MonikerBuilder) : NoPanic (mapEncodingError b.tryMoniker) := by
  have hpush : ∀ (segs : List Segment) (buf : Bytes) (s : Stop EncodingError),
      segs.foldlM MonikerBuilder.pushSegment buf = .error s →
        ∃ e, s = .error e ∧ uriErrorFromEncoding e ≠ .panic := by
    intro segs
    induction segs with
    | nil => intro buf s h; cases h
    | cons seg segs ih =>
      intro buf s h
      rw [foldlM_cons, bind_eq_error] at h
      rcases h with h | ⟨mid, -, h⟩
      · simp only [MonikerBuilder.pushSegment, bind_eq_error, refuse_eq_error, pure_eq_ok,
          reduceCtorEq, and_false, exists_false, or_false] at h
        rcases h with ⟨-, rfl⟩ | ⟨_, -, ⟨-, rfl⟩ | ⟨_, -, ⟨-, rfl⟩ | ⟨_, -, ⟨-, rfl⟩ | ⟨_, -, -, rfl⟩⟩⟩⟩ <;>
          exact ⟨_, rfl, by simp [uriErrorFromEncoding]⟩
      · exact ih mid s h
  have hbuild : ∀ s, b.tryBuild = .error s → ∃ e, s = .error e ∧ uriErrorFromEncoding e ≠ .panic := by
    intro s h
    simp only [MonikerBuilder.tryBuild, bind_eq_error, refuse_eq_error] at h
    rcases h with ⟨-, rfl⟩ | ⟨_, -, ⟨-, rfl⟩ | ⟨_, -, ⟨-, rfl⟩ | ⟨_, -, h⟩⟩⟩
    · exact ⟨_, rfl, by simp [uriErrorFromEncoding]⟩
    · exact ⟨_, rfl, by simp [uriErrorFromEncoding]⟩
    · exact ⟨_, rfl, by simp [uriErrorFromEncoding]⟩
    · exact hpush _ _ _ h
  unfold MonikerBuilder.tryMoniker
  split
  · exact noPanic_ok _
  · next s hs =>
    obtain ⟨e, rfl, he⟩ := hbuild s hs
    simpa [NoPanic, mapEncodingError] using he

/-- `from_uri` never panics : no slice is out of bounds, the debug assertion holds at
every turn, and the `unreachable!` arm is not taken. -/
theorem noPanic_fromUri (uri : List Char) (config : UriConfig) : NoPanic (fromUri uri config) := by
  unfold fromUri
  have hstrip : NoPanic (stripScheme config uri) := by
    unfold stripScheme
    split
    · exact noPanic_ok _
    · exact noPanic_error _
  refine hstrip.bind fun rest _ => (noPanic_readName (At.zero _)).bind fun r hr => ?_
  obtain ⟨project, i⟩ := r
  obtain ⟨text, tail, henc, -, hb, rfl⟩ := (readName_eq_ok_iff (At.zero _)).mp hr
  have h0 : At (Utf8.encode rest) 0 (text ++ tail) := henc ▸ At.zero _
  refine .refuse_bind fun _ => .refuse_bind fun _ => ?_
  exact (noPanic_readSegments h0.advance hb).bind fun _ _ => noPanic_mapEncodingError _

/-! ## Writing -/

theorem doubleBackticks_encodeChar {c : Char} (h : c ≠ '`') :
    doubleBackticks (String.utf8EncodeChar c) = String.utf8EncodeChar c := by
  refine doubleBackticks_of_notMem fun hmem => h ?_
  exact ((Utf8.ascii_mem_encodeChar (a := '`') (by decide)).mp hmem).symm

/-- Doubling the backticks of a text doubles them in its bytes. -/
theorem encode_flatMap_escapeChar : ∀ cs : List Char,
    Utf8.encode (cs.flatMap escapeChar) = doubleBackticks (Utf8.encode cs)
  | [] => rfl
  | c :: cs => by
    rw [flatMap_cons, Utf8.encode_append, encode_flatMap_escapeChar cs, Utf8.encode_cons,
      doubleBackticks_append]
    by_cases hc : c = '`'
    · subst hc
      rfl
    · rw [doubleBackticks_encodeChar hc, escapeChar, if_neg hc]
      simp

theorem expectUtf8_of_valid {ε : Type} {bytes : Bytes} (h : Utf8.Valid bytes) :
    ∃ cs, Utf8.encode cs = bytes ∧ expectUtf8 bytes = (.ok cs : Except (Stop ε) _) := by
  obtain ⟨cs, hcs⟩ := Utf8.valid_iff.mp h
  exact ⟨cs, hcs, by simp [expectUtf8, Utf8.decode?_eq_some_iff.mpr hcs]⟩

/-- `write_name` appends a text that spells the name. -/
theorem exists_writeName {ε : Type} {bytes : Bytes} (h : Utf8.Valid bytes) :
    ∃ t, (∀ out, writeName out bytes = (.ok (out ++ t) : Except (Stop ε) _)) ∧
      Spells (Utf8.encode t) bytes := by
  obtain ⟨cs, hcs, hok⟩ := @expectUtf8_of_valid ε _ h
  by_cases hesc : nameNeedsEscaping bytes
  · refine ⟨'`' :: cs.flatMap escapeChar ++ ['`'], fun out => ?_, ?_⟩
    · simp [writeName, hok, hesc]
    · have hq : Utf8.encode ('`' :: cs.flatMap escapeChar ++ ['`']) = quote bytes := by
        rw [Utf8.encode_append, Utf8.encode_cons, encode_flatMap_escapeChar, hcs]
        rfl
      rw [hq]
      exact .quoted bytes
  · refine ⟨cs, fun out => by simp [writeName, hok, hesc], ?_⟩
    rw [hcs]
    simp only [nameNeedsEscaping, Bool.or_eq_true, any_eq_true, beq_iff_eq, not_or, not_exists,
      not_and] at hesc
    refine .raw (fun b hb => (hesc.2 b hb).1.1) fun hhead => ?_
    exact (hesc.2 backtick (mem_of_mem_head? (by simp [hhead]))).1.2 rfl

/-- The segment loop of `to_uri` appends a text that spells the segments. -/
theorem exists_writeSegments {ε : Type} : ∀ (segs : List Segment), (∀ s ∈ segs, s.Admitted) →
    ∃ t, (∀ out, segs.foldlM writeSegment out = (.ok (out ++ t) : Except (Stop ε) _)) ∧
      SpellsSegments (Utf8.encode t) segs
  | [], _ => ⟨[], fun out => by simp, .nil⟩
  | s :: segs, hall => by
    have hs := hall s (by simp)
    obtain ⟨kind, hkind, hok⟩ := @expectUtf8_of_valid ε _ hs.kindUtf8
    obtain ⟨name, hname, hspells⟩ := @exists_writeName ε _ hs.nameUtf8
    obtain ⟨rest, hrest, hsegs⟩ := @exists_writeSegments ε segs fun t ht => hall t (by simp [ht])
    refine ⟨'/' :: kind ++ ':' :: (name ++ rest), fun out => ?_, ?_⟩
    · rw [foldlM_cons, writeSegment, hok, ok_bind, hname, ok_bind, hrest]
      simp
    · have henc : Utf8.encode ('/' :: kind ++ ':' :: (name ++ rest)) =
          slash :: (s.kind ++ colon :: (Utf8.encode name ++ Utf8.encode rest)) := by
        rw [Utf8.encode_append, Utf8.encode_cons, Utf8.encode_cons, Utf8.encode_append, hkind]
        rfl
      rw [henc]
      exact .cons hs.uriKind hspells hsegs

/-- `to_uri` does not panic and spells the moniker. -/
theorem exists_toUri {ε : Type} (m : Moniker) (config : UriConfig) :
    ∃ uri project segs, toUri m config = (.ok uri : Except (Stop ε) _) ∧
      SpellsUri config uri project segs ∧ m.bytes = encodeParts project segs := by
  obtain ⟨project, segs, hp, hs, rfl⟩ := m.exists_parts
  obtain ⟨t, ht, hproject⟩ := @exists_writeName ε _ hp.utf8
  obtain ⟨r, hr, hsegs⟩ := @exists_writeSegments ε segs hs
  obtain ⟨h1, h2⟩ := @view_parts ε project segs hs
  refine ⟨config.scheme ++ t ++ r, project, segs, ?_, ⟨?_, hp.nonempty, hp.len, ?_⟩, rfl⟩
  · simp only [toUri, Moniker.asView_ofParts, ok_bind, h1, ht, h2, hr]
  · exact ⟨t ++ r, _, _, by simp, Utf8.encode_append t r, hproject, hsegs⟩
  · exact fun s h => ⟨(hs s h).kindLen, (hs s h).nameLen⟩

/-! ## The round trips -/

/-- Every moniker survives a trip through its URI, for every scheme. -/
theorem fromUri_toUri (m : Moniker) (config : UriConfig) :
    ∃ uri, toUri m config = (.ok uri : Except (Stop Empty) _) ∧ fromUri uri config = .ok m := by
  obtain ⟨uri, project, segs, hto, hspells, hbytes⟩ := @exists_toUri Empty m config
  exact ⟨uri, hto, fromUri_eq_ok_iff.mpr ⟨project, segs, hspells, hbytes⟩⟩

/-- `to_uri` after `from_uri`. -/
def canonicalUri (uri : List Char) (config : UriConfig) : Except (Stop UriError) (List Char) := do
  let m ← fromUri uri config
  toUri m config

/-- `from_uri` accepts exactly the grammar, never panics, and `to_uri` after it gives a
text that parses to the same moniker and is its own canonical form. -/
theorem fromUri_grammar (config : UriConfig) : (∀ uri, (∃ m, fromUri uri config = .ok m) ↔
      ∃ project segs, SpellsUri config uri project segs) ∧
    (∀ uri, fromUri uri config ≠ .error .panic) ∧ (∀ uri m, fromUri uri config = .ok m →
      ∃ uri', toUri m config = (.ok uri' : Except (Stop UriError) _) ∧
        fromUri uri' config = .ok m) ∧
    (∀ uri uri', canonicalUri uri config = .ok uri' → canonicalUri uri' config = .ok uri') := by
  have reparse : ∀ m : Moniker, ∃ uri', toUri m config = (.ok uri' : Except (Stop UriError) _) ∧
      fromUri uri' config = .ok m := by
    intro m
    obtain ⟨uri', project, segs, hto, hspells, hbytes⟩ := @exists_toUri UriError m config
    exact ⟨uri', hto, fromUri_eq_ok_iff.mpr ⟨project, segs, hspells, hbytes⟩⟩
  refine ⟨fun uri => ⟨?_, ?_⟩, fun uri => noPanic_fromUri uri config, fun _ m _ => reparse m, ?_⟩
  · rintro ⟨m, hm⟩
    obtain ⟨project, segs, hspells, -⟩ := fromUri_eq_ok_iff.mp hm
    exact ⟨project, segs, hspells⟩
  · rintro ⟨project, segs, hspells⟩
    obtain ⟨hp, hs⟩ := hspells.admitted
    exact ⟨.ofParts project segs hp hs, fromUri_eq_ok_iff.mpr ⟨project, segs, hspells, rfl⟩⟩
  · intro uri uri' h
    obtain ⟨m, hm, hto⟩ := bind_eq_ok.mp h
    obtain ⟨uri'', hto', hfrom⟩ := reparse m
    obtain rfl : uri' = uri'' := Except.ok.inj (hto.symm.trans hto')
    exact bind_eq_ok.mpr ⟨m, hfrom, hto⟩

end CodeMoniker
