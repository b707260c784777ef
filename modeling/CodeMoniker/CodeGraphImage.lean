import CodeMoniker.CodeGraphEncoding
import CodeMoniker.CodeGraphBuild

/-!
# The image of the graph reader

Every length that the reader takes from the bytes fits the slot that the writer has for it,
so a graph that was read can be written again and comes back unchanged
(`encode_of_decode`). The reader of the root alone reads the moniker of the first
definition (`decodeRoot_of_decode`), and refuses a header that counts none. The full reader
does not : `decode_reencodes_with_root_iff` says when the two agree.
-/

namespace CodeMoniker

open ByteCodec

namespace CodeGraphEncoding

def decodeRoot (buf : Bytes) : Result Moniker := do
  refuse (buf.length < headerLen) (.truncated "header")
  let version ← readLE 2 buf 0
  refuse (version ≠ layoutVersion) (.unknownVersion version)
  let defCount ← readLE 4 buf 4
  refuse (defCount = 0) (.truncated "root def")
  let root ← readMoniker ⟨buf, headerLen⟩
  return root.1

/-! ## What is read can be written -/

theorem writable_moniker : Yields readMoniker fun m => Succeeds (writeMoniker m) := by
  refine (yields_word 4 _).bind fun len hlen => ?_
  refine (yields_take len _).bind fun bytes hbytes => yields_lift fun m hm => ?_
  have hm' : Moniker.fromEncoded bytes = .ok m := by
    cases hm'' : Moniker.fromEncoded bytes with
    | ok m' => simpa [hm'', Stop.mapError] using hm
    | error e => cases e <;> simp [hm'', Stop.mapError] at hm
  have hlt : ¬m.bytes.length ≥ 2 ^ 32 := by
    rw [Moniker.bytes_of_fromEncoded hm', hbytes]
    omega
  exact (succeeds_refuse hlt).bind fun _ => succeeds_pure _

variable (what what' : String)

theorem writable_shortBytes :
    Yields (readShortBytes what) fun b => Succeeds (writeShortBytes b what') := by
  refine (yields_word 1 _).bind fun len hlen => ?_
  intro cur bytes cur' h
  have hbytes := yields_take len _ cur bytes cur' h
  have hlt : ¬bytes.length > 2 ^ 8 - 1 := by omega
  exact (succeeds_refuse hlt).bind fun _ => succeeds_pure _

theorem writable_mediumBytes :
    Yields (readMediumBytes what) fun b => Succeeds (writeMediumBytes b what') := by
  refine (yields_word 2 _).bind fun len hlen => ?_
  intro cur bytes cur' h
  have hbytes := yields_take len _ cur bytes cur' h
  have hlt : ¬bytes.length ≥ 2 ^ 16 := by omega
  exact (succeeds_refuse hlt).bind fun _ => succeeds_pure _

theorem writable_optIdx : Yields readOptIdx fun o => Succeeds (writeOptIdx o) := by
  refine (yields_word 4 _).bind fun v hv => Yields.pure ?_
  split_ifs
  · exact succeeds_pure _
  · have hlt : ¬v ≥ 2 ^ 32 := by omega
    exact (succeeds_refuse hlt).bind fun _ => succeeds_pure _

theorem writable_optU16 : Yields (readOptU16 what) fun o => Succeeds (writeOptU16 what' o) := by
  refine (yields_word 2 _).bind fun v hv => Yields.pure ?_
  split_ifs
  · exact succeeds_pure _
  · have hlt : ¬v ≥ 2 ^ 16 := by omega
    exact (succeeds_refuse hlt).bind fun _ => succeeds_pure _

theorem writable_def (defCount : ℕ) : Yields (decodeDef defCount) fun d => Succeeds (encodeDef d) := by
  refine writable_moniker.bind fun _ hmoniker => ?_
  refine (writable_shortBytes _ "def kind").bind fun _ hkind => ?_
  refine writable_optIdx.bind fun _ hparent => ?_
  refine (Yields.trivial (Reader.reject _ _)).bind fun _ _ => ?_
  refine (Yields.trivial readOptPos).bind fun _ _ => ?_
  refine (writable_shortBytes _ "def visibility").bind fun _ hvisibility => ?_
  refine (writable_mediumBytes _ "def signature").bind fun _ hsignature => ?_
  refine (writable_shortBytes _ "def call_name").bind fun _ hcallName => ?_
  refine (writable_optU16 _ "def call_arity").bind fun _ hcallArity => ?_
  refine (writable_shortBytes _ "def binding").bind fun _ hbinding => ?_
  refine (writable_shortBytes _ "def origin").bind fun _ horigin => Yields.pure ?_
  refine hmoniker.bind fun _ => hkind.bind fun _ => hparent.bind fun _ => ?_
  refine hvisibility.bind fun _ => hsignature.bind fun _ => hcallName.bind fun _ => ?_
  exact hcallArity.bind fun _ => hbinding.bind fun _ => horigin.bind fun _ => succeeds_pure _

theorem writable_ref (defCount : ℕ) : Yields (decodeRef defCount) fun r => Succeeds (encodeRef r) := by
  refine (yields_word 4 _).bind fun source hsource => ?_
  refine (Yields.trivial (Reader.reject _ _)).bind fun _ _ => ?_
  refine writable_moniker.bind fun _ htarget => ?_
  refine (writable_shortBytes _ "ref kind").bind fun _ hkind => ?_
  refine (Yields.trivial readOptPos).bind fun _ _ => ?_
  refine (writable_shortBytes _ "ref receiver_hint").bind fun _ hreceiverHint => ?_
  refine (writable_shortBytes _ "ref alias").bind fun _ haliasName => ?_
  refine (writable_shortBytes _ "ref confidence").bind fun _ hconfidence => ?_
  refine (writable_shortBytes _ "ref call_name").bind fun _ hcallName => ?_
  refine (writable_optU16 _ "ref call_arity").bind fun _ hcallArity => ?_
  refine (writable_shortBytes _ "ref binding").bind fun _ hbinding => Yields.pure ?_
  have hlt : ¬source ≥ 2 ^ 32 := by omega
  refine (succeeds_refuse hlt).bind fun _ => htarget.bind fun _ => hkind.bind fun _ => ?_
  refine hreceiverHint.bind fun _ => haliasName.bind fun _ => hconfidence.bind fun _ => ?_
  exact hcallName.bind fun _ => hcallArity.bind fun _ => hbinding.bind fun _ => succeeds_pure _

theorem succeeds_encodeAll {α : Type} {write : α → Result Bytes} :
    ∀ {as : List α}, (∀ a ∈ as, Succeeds (write a)) → Succeeds (encodeAll write as)
  | [], _ => succeeds_pure _
  | a :: _, h =>
    (h a List.mem_cons_self).bind fun _ =>
      (succeeds_encodeAll fun x hx => h x (List.mem_cons_of_mem a hx)).bind fun _ =>
        succeeds_pure _

/-- What the full reader has read when it returns a graph. -/
theorem decode_eq_ok {buf : Bytes} {g : CodeGraph} (h : decode buf = .ok g) :
    ¬buf.length < headerLen ∧ readLE 2 buf 0 = (.ok layoutVersion : Result ℕ) ∧
      ∃ defCount refCount cur, readLE 4 buf 4 = (.ok defCount : Result ℕ) ∧
        readLE 4 buf 8 = (.ok refCount : Result ℕ) ∧
        decodeRecords defCount refCount ⟨buf, headerLen⟩ = .ok ((g.defs, g.refs), cur) ∧
        g = CodeGraph.fromRecords g.defs g.refs := by
  simp only [decode, bind_eq_ok] at h
  obtain ⟨_, hheader, version, hversion, _, hlayout, defCount, hdefCount, refCount, hrefCount, _, -,
    ⟨⟨defs, refs⟩, cur⟩, hrecords, hg⟩ := h
  obtain rfl := Except.ok.inj hg
  obtain rfl : version = layoutVersion := not_not.mp (refuse_eq_ok.mp hlayout)
  exact ⟨refuse_eq_ok.mp hheader, hversion, defCount, refCount, cur, hdefCount, hrefCount,
    hrecords, rfl⟩

/-- A graph that was read is written without an error, and read back as it was. -/
theorem encode_of_decode {buf : Bytes} {g : CodeGraph} (h : decode buf = .ok g) :
    ∃ bytes, encode g = .ok bytes ∧ decode bytes = .ok g := by
  obtain ⟨-, -, defCount, refCount, cur, hdefCount, hrefCount, hrecords, hg⟩ := decode_eq_ok h
  have hyields : Yields (decodeRecords defCount refCount) fun records =>
      (records.1.length = defCount ∧ ∀ d ∈ records.1, Succeeds (encodeDef d)) ∧
        records.2.length = refCount ∧ ∀ r ∈ records.2, Succeeds (encodeRef r) :=
    ((writable_def defCount).times defCount).bind fun defs hdefs =>
      ((writable_ref defCount).times refCount).bind fun refs hrefs => Yields.pure ⟨hdefs, hrefs⟩
  obtain ⟨⟨hdefLen, hdefs⟩, hrefLen, hrefs⟩ := hyields _ _ _ hrecords
  have hdefLt := readLE_lt hdefCount
  have hrefLt := readLE_lt hrefCount
  simp only at hdefLen hrefLen
  have hencode : Succeeds (encode g) := by
    refine (succeeds_refuse (by omega)).bind fun _ => (succeeds_refuse (by omega)).bind fun _ => ?_
    refine (succeeds_encodeAll hdefs).bind fun _ => (succeeds_encodeAll hrefs).bind fun _ => ?_
    exact succeeds_pure _
  obtain ⟨bytes, hbytes⟩ := hencode
  refine ⟨bytes, hbytes, ?_⟩
  rw [decode_of_storable hbytes (storable_of_decode h), ← hg]

/-! ## The root -/

/-- A definition starts with its moniker. -/
theorem readMoniker_of_decodeDef {defCount : ℕ} {cur cur' : Cursor} {d : DefRecord}
    (h : decodeDef defCount cur = .ok (d, cur')) :
    ∃ mid, readMoniker cur = .ok (d.moniker, mid) := by
  obtain ⟨moniker, mid, hmoniker, hrest⟩ := Reader.bind_eq_ok.mp h
  simp only [Reader.bind_eq_ok] at hrest
  obtain ⟨_, _, -, _, _, -, _, _, -, _, _, -, _, _, -, _, _, -, _, _, -, _, _, -, _, _, -, _, _, -,
    hd⟩ := hrest
  obtain ⟨rfl, -⟩ := Prod.mk.inj (Except.ok.inj hd)
  exact ⟨mid, hmoniker⟩

/-- The number of definitions in the header. -/
def headerDefCount (buf : Bytes) : Result ℕ := readLE 4 buf 4

/-- The two readers agree on a graph with a definition. -/
theorem decodeRoot_of_decode {buf : Bytes} {g : CodeGraph} (h : decode buf = .ok g)
    (hcount : headerDefCount buf ≠ .ok 0) : ∃ r, decodeRoot buf = .ok r ∧ g.root = some r := by
  obtain ⟨hheader, hversion, defCount, refCount, cur, hdefCount, -, hrecords, -⟩ := decode_eq_ok h
  have hpos : defCount ≠ 0 := by
    rintro rfl
    exact hcount hdefCount
  obtain ⟨n, rfl⟩ := Nat.exists_eq_succ_of_ne_zero hpos
  obtain ⟨defs, mid, hdefs, hrefs⟩ := Reader.bind_eq_ok.mp hrecords
  obtain ⟨refs, _, -, hpair⟩ := Reader.bind_eq_ok.mp hrefs
  obtain ⟨hrec, -⟩ := Prod.mk.inj (Except.ok.inj hpair)
  obtain ⟨hgdefs, -⟩ := Prod.mk.inj hrec
  obtain ⟨d, _, hd, htail⟩ := Reader.bind_eq_ok.mp hdefs
  obtain ⟨ds, _, -, hcons⟩ := Reader.bind_eq_ok.mp htail
  obtain ⟨hdefs', -⟩ := Prod.mk.inj (Except.ok.inj hcons)
  obtain ⟨_, hmoniker⟩ := readMoniker_of_decodeDef hd
  refine ⟨d.moniker, ?_, ?_⟩
  · simp only [decodeRoot, refuse_of_not _ hheader, hversion, hdefCount, hmoniker, ok_bind]
    rfl
  · rw [CodeGraph.root, CodeGraph.defAt, ← hgdefs, ← hdefs']
    rfl

/-- The reader of the root refuses a header without definitions. -/
theorem decodeRoot_zero {buf : Bytes} (hcount : headerDefCount buf = .ok 0) (r : Moniker) :
    decodeRoot buf ≠ .ok r := by
  intro h
  simp only [decodeRoot, bind_eq_ok] at h
  obtain ⟨_, -, _, -, _, -, defCount, hdefCount, _, hzero, -⟩ := h
  rw [headerDefCount, hdefCount] at hcount
  exact refuse_eq_ok.mp hzero (Except.ok.inj hcount)

/-- For a graph that was read : it is written again and comes back unchanged, and the
reader of the root returns the moniker of its first definition, if and only if the header
counts at least one definition. -/
theorem decode_reencodes_with_root_iff (buf : Bytes) (g : CodeGraph) (h : decode buf = .ok g) :
    ((∃ bytes, encode g = .ok bytes ∧ decode bytes = .ok g) ∧
        ∃ r, decodeRoot buf = .ok r ∧ g.root = some r) ↔ headerDefCount buf ≠ .ok 0 := by
  constructor
  · rintro ⟨-, r, hr, -⟩ hcount
    exact decodeRoot_zero hcount r hr
  · intro hcount
    exact ⟨encode_of_decode h, decodeRoot_of_decode h hcount⟩

theorem decode_reencodes_with_root_nestedGraph : ∃ buf g, decode buf = .ok g ∧
    (∃ bytes, encode g = .ok bytes ∧ decode bytes = .ok g) ∧
      ∃ r, decodeRoot buf = .ok r ∧ g.root = some r := by
  have h : ∃ buf, encode nestedGraph = .ok buf ∧ headerDefCount buf ≠ .ok 0 :=
    ⟨_, rfl, by decide +kernel⟩
  obtain ⟨buf, hbuf, hcount⟩ := h
  have hdecode := decode_of_storable hbuf storable_nestedGraph
  exact ⟨buf, _, hdecode, (decode_reencodes_with_root_iff buf _ hdecode).mpr hcount⟩

/-- A header of the current version that counts nothing. -/
def emptyHeader : Bytes := toLE 2 layoutVersion ++ (toLE 2 0 ++ (toLE 4 0 ++ toLE 4 0))

/-- The full reader returns a graph without a root, which the reader of the root refuses. -/
theorem decodeRoot_emptyHeader : ∃ g, decode emptyHeader = .ok g ∧ g.root = none ∧
      decodeRoot emptyHeader = .error (.error (.truncated "root def")) ∧
      ¬∃ r, decodeRoot emptyHeader = .ok r ∧ g.root = some r := by
  refine ⟨CodeGraph.fromRecords [] [], rfl, rfl, rfl, ?_⟩
  rintro ⟨r, -, hr⟩
  cases hr

end CodeGraphEncoding

end CodeMoniker
