import CodeMoniker.CodeGraph

/-!
# The binary layout of a code graph

A header of twelve bytes (version, reserved, two counts), then the definitions and the
references one after the other. Attributes carry their length, and an absent index,
position or arity is written as the largest value of its slot, so that value cannot be
told from an absent one. The reader also refuses an index past the definitions.

`Storable` collects these conditions. A graph the writer accepts comes back from
the reader exactly when it is storable (`decode_encode`).
-/

namespace CodeMoniker

open ByteCodec Yields Except

namespace CodeGraphEncoding

inductive EncodingError where
  | truncated (what : String)
  | unknownVersion (version : ℕ)
  | indexOverflow
  | lengthOverflow (what : String)
  | invalidIndex (what : String)
  | invalidMoniker (e : CodeMoniker.EncodingError)
  deriving DecidableEq, Repr

abbrev Result (α : Type) := Except (Stop EncodingError) α

def layoutVersion : ℕ := 3

/-- Version, reserved word, number of definitions, number of references. -/
def headerLen : ℕ := 2 + 2 + 4 + 4

def noneU32 : ℕ := 2 ^ 32 - 1

def noneU16 : ℕ := 2 ^ 16 - 1

/-! ## Writing -/

def writeMoniker (m : Moniker) : Result Bytes := do
  refuse (m.bytes.length ≥ 2 ^ 32) (.lengthOverflow "moniker")
  return toLE 4 m.bytes.length ++ m.bytes

def writeShortBytes (bytes : Bytes) (what : String) : Result Bytes := do
  refuse (bytes.length > 2 ^ 8 - 1) (.lengthOverflow what)
  return toLE 1 bytes.length ++ bytes

def writeMediumBytes (bytes : Bytes) (what : String) : Result Bytes := do
  refuse (bytes.length ≥ 2 ^ 16) (.lengthOverflow what)
  return toLE 2 bytes.length ++ bytes

def writeOptIdx : Option ℕ → Result Bytes
  | none => return toLE 4 noneU32
  | some i => do
    refuse (i ≥ 2 ^ 32) .indexOverflow
    return toLE 4 i

def writeOptPos : Option Position → Bytes
  | none => toLE 4 noneU32 ++ toLE 4 noneU32
  | some (s, e) => toLE 4 s.toNat ++ toLE 4 e.toNat

variable (what : String)

def writeOptU16 : Option ℕ → Result Bytes
  | none => return toLE 2 noneU16
  | some value => do
    refuse (value ≥ 2 ^ 16) (.lengthOverflow what)
    return toLE 2 value

/-- The bytes one definition adds. -/
def encodeDef (d : DefRecord) : Result Bytes := do
  let moniker ← writeMoniker d.moniker
  let kind ← writeShortBytes d.kind "def kind"
  let parent ← writeOptIdx d.parent
  let position := writeOptPos d.position
  let visibility ← writeShortBytes d.visibility "def visibility"
  let signature ← writeMediumBytes d.signature "def signature"
  let callName ← writeShortBytes d.callName "def call_name"
  let callArity ← writeOptU16 "def call_arity" d.callArity
  let binding ← writeShortBytes d.binding "def binding"
  let origin ← writeShortBytes d.origin "def origin"
  return moniker ++ (kind ++ (parent ++ (position ++ (visibility ++ (signature ++ (callName ++
    (callArity ++ (binding ++ origin))))))))

/-- The bytes one reference adds. -/
def encodeRef (r : RefRecord) : Result Bytes := do
  refuse (r.source ≥ 2 ^ 32) .indexOverflow
  let target ← writeMoniker r.target
  let kind ← writeShortBytes r.kind "ref kind"
  let position := writeOptPos r.position
  let receiverHint ← writeShortBytes r.receiverHint "ref receiver_hint"
  let aliasName ← writeShortBytes r.aliasName "ref alias"
  let confidence ← writeShortBytes r.confidence "ref confidence"
  let callName ← writeShortBytes r.callName "ref call_name"
  let callArity ← writeOptU16 "ref call_arity" r.callArity
  let binding ← writeShortBytes r.binding "ref binding"
  return toLE 4 r.source ++ (target ++ (kind ++ (position ++ (receiverHint ++ (aliasName ++
    (confidence ++ (callName ++ (callArity ++ binding))))))))

/-- One record after the other, up to the first failure. -/
def encodeAll {α : Type} (write : α → Result Bytes) : List α → Result Bytes
  | [] => return []
  | a :: as => do
    let bytes ← write a
    let rest ← encodeAll write as
    return bytes ++ rest

def encode (g : CodeGraph) : Result Bytes := do
  refuse (g.defs.length ≥ 2 ^ 32) .indexOverflow
  refuse (g.refs.length ≥ 2 ^ 32) .indexOverflow
  let defs ← encodeAll encodeDef g.defs
  let refs ← encodeAll encodeRef g.refs
  return toLE 2 layoutVersion ++ (toLE 2 0 ++ (toLE 4 g.defs.length ++ (toLE 4 g.refs.length ++
    (defs ++ refs))))

/-! ## Reading -/

def readU8 : Reader EncodingError ℕ := Reader.word 1 (.truncated what)

def readU16 : Reader EncodingError ℕ := Reader.word 2 (.truncated what)

def readU32 : Reader EncodingError ℕ := Reader.word 4 (.truncated what)

def readMoniker : Reader EncodingError Moniker := do
  let len ← readU32 "moniker len"
  let bytes ← Reader.take len (.truncated "moniker bytes")
  Reader.lift (Stop.mapError EncodingError.invalidMoniker (Moniker.fromEncoded bytes))

def readShortBytes : Reader EncodingError Bytes := do
  let len ← readU8 what
  Reader.take len (.truncated what)

def readMediumBytes : Reader EncodingError Bytes := do
  let len ← readU16 what
  Reader.take len (.truncated what)

def readOptIdx : Reader EncodingError (Option ℕ) := do
  let v ← readU32 "opt idx"
  return if v = noneU32 then none else some v

def readOptPos : Reader EncodingError (Option Position) := do
  let s ← readU32 "position start"
  let e ← readU32 "position end"
  return if s = noneU32 ∧ e = noneU32 then none else some (UInt32.ofNat s, UInt32.ofNat e)

def readOptU16 : Reader EncodingError (Option ℕ) := do
  let value ← readU16 what
  return if value = noneU16 then none else some value

variable (defCount : ℕ)

def decodeDef : Reader EncodingError DefRecord := do
  let moniker ← readMoniker
  let kind ← readShortBytes "def kind"
  let parent ← readOptIdx
  Reader.reject (∃ p ∈ parent, p ≥ defCount) (.invalidIndex "def parent")
  let position ← readOptPos
  let visibility ← readShortBytes "def visibility"
  let signature ← readMediumBytes "def signature"
  let callName ← readShortBytes "def call_name"
  let callArity ← readOptU16 "def call_arity"
  let binding ← readShortBytes "def binding"
  let origin ← readShortBytes "def origin"
  return { moniker, kind, parent, position, visibility, signature, callName, callArity, binding,
           origin }

def decodeRef : Reader EncodingError RefRecord := do
  let source ← readU32 "ref source"
  Reader.reject (source ≥ defCount) (.invalidIndex "ref source")
  let target ← readMoniker
  let kind ← readShortBytes "ref kind"
  let position ← readOptPos
  let receiverHint ← readShortBytes "ref receiver_hint"
  let aliasName ← readShortBytes "ref alias"
  let confidence ← readShortBytes "ref confidence"
  let callName ← readShortBytes "ref call_name"
  let callArity ← readOptU16 "ref call_arity"
  let binding ← readShortBytes "ref binding"
  return { source, target, kind, position, receiverHint, aliasName, confidence, callName, callArity,
           binding }

/-- The two sections behind the header. -/
def decodeRecords (defCount refCount : ℕ) :
    Reader EncodingError (List DefRecord × List RefRecord) := do
  let defs ← Reader.times defCount (decodeDef defCount)
  let refs ← Reader.times refCount (decodeRef defCount)
  return (defs, refs)

def decode (buf : Bytes) : Result CodeGraph := do
  refuse (buf.length < headerLen) (.truncated "header")
  let version ← readLE 2 buf 0
  refuse (version ≠ layoutVersion) (.unknownVersion version)
  let defCount ← readLE 4 buf 4
  let refCount ← readLE 4 buf 8
  refuse (defCount > buf.length ∨ refCount > buf.length) (.truncated "counts exceed buffer")
  let records ← decodeRecords defCount refCount ⟨buf, headerLen⟩
  return CodeGraph.fromRecords records.1.1 records.1.2

/-! ## Storable graphs -/

/-- The position that is written like an absent one. -/
def sentinelPosition : Position := (UInt32.ofNat noneU32, UInt32.ofNat noneU32)

/-- What the reader can return among `defCount` definitions. -/
@[mk_iff]
structure StorableDef (defCount : ℕ) (d : DefRecord) : Prop where
  parent : ∀ p ∈ d.parent, p < defCount
  position : d.position ≠ some sentinelPosition
  callArity : d.callArity ≠ some noneU16

@[mk_iff]
structure StorableRef (defCount : ℕ) (r : RefRecord) : Prop where
  source : r.source < defCount
  position : r.position ≠ some sentinelPosition
  callArity : r.callArity ≠ some noneU16

/-- Every index lies among the definitions and no position or arity is a sentinel. -/
structure Storable (g : CodeGraph) : Prop where
  defs : ∀ d ∈ g.defs, StorableDef g.defCount d
  refs : ∀ r ∈ g.refs, StorableRef g.defCount r

/-! ## Each field reader reads what its writer wrote -/

theorem reads_moniker {m : Moniker} {bs : Bytes} (h : writeMoniker m = .ok bs) :
    Reads readMoniker bs m := by
  obtain ⟨u, hu, h⟩ := bind_eq_ok.mp h
  obtain rfl := ok.inj h
  have hlen := refuse_eq_ok.mp hu
  refine (reads_word (by omega) _).bind ((reads_take m.bytes _).bind_last ?_)
  exact reads_lift (by simp [Moniker.fromEncoded_bytes, Stop.mapError])

theorem reads_shortBytes {b bs : Bytes} {what what' : String}
    (h : writeShortBytes b what = .ok bs) : Reads (readShortBytes what') bs b := by
  obtain ⟨u, hu, h⟩ := bind_eq_ok.mp h
  obtain rfl := ok.inj h
  have hlen := refuse_eq_ok.mp hu
  exact (reads_word (by omega) _).bind (reads_take b _)

theorem reads_mediumBytes {b bs : Bytes} {what what' : String}
    (h : writeMediumBytes b what = .ok bs) : Reads (readMediumBytes what') bs b := by
  obtain ⟨u, hu, h⟩ := bind_eq_ok.mp h
  obtain rfl := ok.inj h
  have hlen := refuse_eq_ok.mp hu
  exact (reads_word (by omega) _).bind (reads_take b _)

theorem reads_optIdx {o : Option ℕ} {bs : Bytes} (h : writeOptIdx o = .ok bs)
    (hne : o ≠ some noneU32) : Reads readOptIdx bs o := by
  cases o with
  | none =>
    obtain rfl := ok.inj h
    exact (reads_word (by decide) _).bind_last (Reads.pure none)
  | some i =>
    obtain ⟨u, hu, h⟩ := bind_eq_ok.mp h
    obtain rfl := ok.inj h
    have hlt := refuse_eq_ok.mp hu
    have hi : i ≠ noneU32 := fun hi => hne (congrArg some hi)
    refine (reads_word (by omega) _).bind_last ?_
    rw [if_neg hi]
    exact Reads.pure _

theorem reads_optPos {o : Option Position} (hne : o ≠ some sentinelPosition) :
    Reads readOptPos (writeOptPos o) o := by
  cases o with
  | none =>
    refine (reads_word (by decide) _).bind ?_
    exact (reads_word (by decide) _).bind_last (Reads.pure none)
  | some p =>
    have hp : ¬(p.1.toNat = noneU32 ∧ p.2.toNat = noneU32) := by
      intro hp
      have h1 : p.1 = UInt32.ofNat noneU32 := by rw [← hp.1, UInt32.ofNat_toNat]
      have h2 : p.2 = UInt32.ofNat noneU32 := by rw [← hp.2, UInt32.ofNat_toNat]
      exact hne (congrArg some (Prod.ext h1 h2))
    refine (reads_word p.1.toNat_lt _).bind ((reads_word p.2.toNat_lt _).bind_last ?_)
    rw [if_neg hp, UInt32.ofNat_toNat, UInt32.ofNat_toNat]
    exact Reads.pure _

theorem reads_optU16 {o : Option ℕ} {what what' : String} {bs : Bytes}
    (h : writeOptU16 what o = .ok bs) (hne : o ≠ some noneU16) : Reads (readOptU16 what') bs o := by
  cases o with
  | none =>
    obtain rfl := ok.inj h
    exact (reads_word (by decide) _).bind_last (Reads.pure none)
  | some v =>
    obtain ⟨u, hu, h⟩ := bind_eq_ok.mp h
    obtain rfl := ok.inj h
    have hlt := refuse_eq_ok.mp hu
    have hv : v ≠ noneU16 := fun hv => hne (congrArg some hv)
    refine (reads_word (by omega) _).bind_last ?_
    rw [if_neg hv]
    exact Reads.pure _

/-- A definition with a parent among fewer than `2 ^ 32` definitions. -/
theorem reads_def {defCount : ℕ} {d : DefRecord} {bs : Bytes} (hn : defCount < 2 ^ 32)
    (hd : StorableDef defCount d) (h : encodeDef d = .ok bs) : Reads (decodeDef defCount) bs d := by
  simp only [encodeDef, bind_eq_ok] at h
  obtain ⟨_, hmoniker, _, hkind, _, hparent, _, hvisibility, _, hsignature, _, hcallName, _,
    hcallArity, _, hbinding, _, horigin, h⟩ := h
  obtain rfl := ok.inj h
  have hidx : d.parent ≠ some noneU32 := by
    intro hp
    have := hd.parent _ hp
    unfold noneU32 at this
    omega
  have hpast : ¬∃ p ∈ d.parent, p ≥ defCount := by
    rintro ⟨p, hp, hge⟩
    have := hd.parent p hp
    omega
  refine (reads_moniker hmoniker).bind ?_
  refine (reads_shortBytes hkind).bind ?_
  refine (reads_optIdx hparent hidx).bind ?_
  refine (reads_reject _ hpast).bind_nil ?_
  refine (reads_optPos hd.position).bind ?_
  refine (reads_shortBytes hvisibility).bind ?_
  refine (reads_mediumBytes hsignature).bind ?_
  refine (reads_shortBytes hcallName).bind ?_
  refine (reads_optU16 hcallArity hd.callArity).bind ?_
  refine (reads_shortBytes hbinding).bind ?_
  exact (reads_shortBytes horigin).bind_last (Reads.pure d)

theorem reads_ref {defCount : ℕ} {r : RefRecord} {bs : Bytes}
    (hr : StorableRef defCount r) (h : encodeRef r = .ok bs) : Reads (decodeRef defCount) bs r := by
  simp only [encodeRef, bind_eq_ok] at h
  obtain ⟨u, hu, _, htarget, _, hkind, _, hreceiverHint, _, haliasName, _, hconfidence, _,
    hcallName, _, hcallArity, _, hbinding, h⟩ := h
  obtain rfl := ok.inj h
  have hlt := refuse_eq_ok.mp hu
  have hsource := hr.source
  refine (reads_word (by omega) _).bind ?_
  refine (reads_reject _ (by omega)).bind_nil ?_
  refine (reads_moniker htarget).bind ?_
  refine (reads_shortBytes hkind).bind ?_
  refine (reads_optPos hr.position).bind ?_
  refine (reads_shortBytes hreceiverHint).bind ?_
  refine (reads_shortBytes haliasName).bind ?_
  refine (reads_shortBytes hconfidence).bind ?_
  refine (reads_shortBytes hcallName).bind ?_
  refine (reads_optU16 hcallArity hr.callArity).bind ?_
  exact (reads_shortBytes hbinding).bind_last (Reads.pure r)

theorem reads_all {α : Type} {write : α → Result Bytes} {p : Reader EncodingError α} :
    ∀ {as : List α} {bs : Bytes}, encodeAll write as = .ok bs →
      (∀ a ∈ as, ∀ b, write a = .ok b → Reads p b a) → Reads (Reader.times as.length p) bs as
  | [], bs, h, _ => by
    obtain rfl := ok.inj h
    exact Reads.times_zero p
  | a :: as, bs, h, hp => by
    obtain ⟨b, hb, h⟩ := bind_eq_ok.mp h
    obtain ⟨rest, hrest, h⟩ := bind_eq_ok.mp h
    obtain rfl := ok.inj h
    exact (hp a (by simp) b hb).times_succ (reads_all hrest fun x hx => hp x (by simp [hx]))

theorem length_le_encodeAll {α : Type} {write : α → Result Bytes}
    (hw : ∀ a b, write a = .ok b → 0 < b.length) :
    ∀ {as : List α} {bs : Bytes}, encodeAll write as = .ok bs → as.length ≤ bs.length
  | [], _, _ => by simp
  | a :: as, bs, h => by
    obtain ⟨b, hb, h⟩ := bind_eq_ok.mp h
    obtain ⟨rest, hrest, h⟩ := bind_eq_ok.mp h
    obtain rfl := ok.inj h
    have h1 := hw a b hb
    have h2 := length_le_encodeAll hw hrest
    simp only [List.length_append, List.length_cons]
    omega

theorem length_writeMoniker {m : Moniker} {bs : Bytes} (h : writeMoniker m = .ok bs) :
    0 < bs.length := by
  obtain ⟨u, -, h⟩ := bind_eq_ok.mp h
  obtain rfl := ok.inj h
  simp

theorem length_encodeDef (d : DefRecord) (bs : Bytes) (h : encodeDef d = .ok bs) :
    0 < bs.length := by
  simp only [encodeDef, bind_eq_ok] at h
  obtain ⟨m, hm, _, -, _, -, _, -, _, -, _, -, _, -, _, -, _, -, h⟩ := h
  obtain rfl := ok.inj h
  have := length_writeMoniker hm
  simp only [List.length_append]
  omega

theorem length_encodeRef (r : RefRecord) (bs : Bytes) (h : encodeRef r = .ok bs) :
    0 < bs.length := by
  simp only [encodeRef, bind_eq_ok] at h
  obtain ⟨_, -, _, -, _, -, _, -, _, -, _, -, _, -, _, -, _, -, h⟩ := h
  obtain rfl := ok.inj h
  simp only [List.length_append, length_toLE]
  omega

/-! ## What the reader returns is storable -/

theorem yields_optPos : Yields readOptPos (· ≠ some sentinelPosition) := by
  refine (yields_word 4 _).bind fun s hs => (yields_word 4 _).bind fun e he => pure ?_
  intro h
  split_ifs at h with hne
  obtain ⟨h1, h2⟩ := Prod.mk.inj (Option.some.inj h)
  have hword : ∀ n, n < 2 ^ 32 → UInt32.ofNat n = UInt32.ofNat noneU32 → n = noneU32 := by
    intro n hn heq
    have := congrArg UInt32.toNat heq
    rw [UInt32.toNat_ofNat', UInt32.toNat_ofNat', Nat.mod_eq_of_lt hn] at this
    simpa [noneU32] using this
  exact hne ⟨hword s hs h1, hword e he h2⟩

theorem yields_optU16 : Yields (readOptU16 what) (· ≠ some noneU16) := by
  refine (trivial _).bind fun v _ => pure ?_
  split_ifs with hv <;> simp [hv]

theorem yields_def : Yields (decodeDef defCount) (StorableDef defCount) := by
  refine (trivial readMoniker).bind fun _ _ => ?_
  refine (trivial (readShortBytes _)).bind fun _ _ => ?_
  refine (trivial readOptIdx).bind fun parent _ => ?_
  refine (yields_reject _ _).bind fun _ hparent => ?_
  refine yields_optPos.bind fun _ hposition => ?_
  refine (trivial (readShortBytes _)).bind fun _ _ => ?_
  refine (trivial (readMediumBytes _)).bind fun _ _ => ?_
  refine (trivial (readShortBytes _)).bind fun _ _ => ?_
  refine (yields_optU16 _).bind fun _ hcallArity => ?_
  refine (trivial (readShortBytes _)).bind fun _ _ => ?_
  refine (trivial (readShortBytes _)).bind fun _ _ => pure ?_
  refine ⟨fun p hp => ?_, hposition, hcallArity⟩
  by_contra hge
  exact hparent ⟨p, hp, by omega⟩

theorem yields_ref : Yields (decodeRef defCount) (StorableRef defCount) := by
  refine (trivial (readU32 _)).bind fun _ _ => ?_
  refine (yields_reject _ _).bind fun _ hsource => ?_
  refine (trivial readMoniker).bind fun _ _ => ?_
  refine (trivial (readShortBytes _)).bind fun _ _ => ?_
  refine yields_optPos.bind fun _ hposition => ?_
  refine (trivial (readShortBytes _)).bind fun _ _ => ?_
  refine (trivial (readShortBytes _)).bind fun _ _ => ?_
  refine (trivial (readShortBytes _)).bind fun _ _ => ?_
  refine (trivial (readShortBytes _)).bind fun _ _ => ?_
  refine (yields_optU16 _).bind fun _ hcallArity => ?_
  refine (trivial (readShortBytes _)).bind fun _ _ => pure ?_
  exact ⟨by simpa using hsource, hposition, hcallArity⟩

theorem storable_of_decode {buf : Bytes} {g : CodeGraph} (h : decode buf = .ok g) : Storable g := by
  simp only [decode, bind_eq_ok] at h
  obtain ⟨_, -, version, -, _, -, defCount, -, refCount, -, _, -, ⟨⟨defs, refs⟩, cur⟩, h, hg⟩ := h
  obtain rfl := ok.inj hg
  have hrecords : Yields (decodeRecords defCount refCount) fun records =>
      records.1.length = defCount ∧ (∀ d ∈ records.1, StorableDef defCount d) ∧
        ∀ r ∈ records.2, StorableRef defCount r :=
    ((yields_def defCount).times defCount).bind fun defs hdefs =>
      ((yields_ref defCount).times refCount).bind fun refs hrefs =>
        pure ⟨hdefs.1, hdefs.2, hrefs.2⟩
  obtain ⟨rfl, hdefs, hrefs⟩ := hrecords _ _ _ h
  exact ⟨hdefs, hrefs⟩

/-! ## The round trip -/

theorem decode_of_storable {g : CodeGraph} {bytes : Bytes} (h : encode g = .ok bytes)
    (hg : Storable g) : decode bytes = .ok (CodeGraph.fromRecords g.defs g.refs) := by
  simp only [encode, bind_eq_ok] at h
  obtain ⟨_, hd, _, hr, defs, hdefs, refs, hrefs, h⟩ := h
  obtain rfl := ok.inj h
  have hdn := refuse_eq_ok.mp hd
  have hrn := refuse_eq_ok.mp hr
  set buf : Bytes := toLE 2 layoutVersion ++ (toLE 2 0 ++ (toLE 4 g.defs.length ++
    (toLE 4 g.refs.length ++ (defs ++ refs)))) with hbuf
  have h0 : At buf 0 buf := At.zero buf
  have h2 := h0.advance
  have h4 := h2.advance
  have h8 := h4.advance
  have h12 := h8.advance
  simp only [length_toLE, Nat.zero_add, Nat.reduceAdd] at h2 h4 h8 h12
  have hlen := h12.length
  rw [List.length_append] at hlen
  have hdlen := length_le_encodeAll length_encodeDef hdefs
  have hrlen := length_le_encodeAll length_encodeRef hrefs
  have hrecords : Reads (decodeRecords g.defs.length g.refs.length) (defs ++ refs)
      (g.defs, g.refs) := by
    have hlt : g.defCount < 2 ^ 32 := by
      unfold CodeGraph.defCount
      omega
    refine (reads_all hdefs fun d hd b hb => reads_def hlt (hg.defs d hd) hb).bind ?_
    exact (reads_all hrefs fun r hr b hb => reads_ref (hg.refs r hr) hb).map
  have hread := hrecords buf headerLen [] (by rwa [List.append_nil])
  have hheader : ¬buf.length < headerLen := by unfold headerLen; omega
  have hcounts : ¬(g.defs.length > buf.length ∨ g.refs.length > buf.length) := by omega
  have hversion : ¬layoutVersion ≠ layoutVersion := by simp
  simp only [decode, refuse_of_not _ hheader, refuse_of_not _ hcounts, refuse_of_not _ hversion,
    readLE_at h0 (by decide : layoutVersion < 256 ^ 2), readLE_at h4 (by omega),
    readLE_at h8 (by omega), hread, ok_bind, pure_eq_ok]

/-- A graph the writer accepts comes back unchanged if and only if every index lies among
its definitions and no position or arity is the value that stands for an absent one. -/
theorem decode_encode (g : CodeGraph) (bytes : Bytes) (h : encode g = .ok bytes) :
    (∃ g', decode bytes = .ok g' ∧ g'.Same g) ↔ Storable g := by
  constructor
  · rintro ⟨g', hg', hdefs, hrefs⟩
    have hs := storable_of_decode hg'
    refine ⟨fun d hd => ?_, fun r hr => ?_⟩
    · have := hs.defs d (hdefs ▸ hd)
      rwa [CodeGraph.defCount, hdefs] at this
    · have := hs.refs r (hrefs ▸ hr)
      rwa [CodeGraph.defCount, hdefs] at this
  · intro hg
    exact ⟨_, decode_of_storable h hg, rfl, rfl⟩

/-- `app` with the segment `path:util` a number of times. -/
def utilPath (depth : ℕ) : Moniker :=
  Moniker.ofParts [97, 112, 112]
    (List.replicate depth ⟨[112, 97, 116, 104], [117, 116, 105, 108]⟩)
    ⟨by decide, by decide, by decide⟩ (by
      intro s hs
      obtain rfl := List.eq_of_mem_replicate hs
      exact ⟨by decide, by decide, by decide, by decide, by decide⟩)

def utilModule : Moniker := utilPath 1

def nestedDef (depth : ℕ) (parent : Option ℕ) : DefRecord :=
  { moniker := utilPath depth, kind := [109], parent, position := some (0, 9), visibility := [],
    signature := [40, 41], callName := [117], callArity := some 0, binding := [], origin := [] }

/-- A definition in a definition of the root, with a reference to the one that it is in. -/
def nestedGraph : CodeGraph :=
  CodeGraph.fromRecords [nestedDef 1 none, nestedDef 2 (some 0), nestedDef 3 (some 1)]
    [{ source := 2, target := utilPath 2, kind := [114], position := some (2, 5),
       receiverHint := [], aliasName := [], confidence := [], callName := [117],
       callArity := some 0, binding := [] }]

theorem storable_nestedGraph : Storable nestedGraph := by
  constructor
  · simp [nestedGraph, CodeGraph.fromRecords, storableDef_iff, nestedDef, CodeGraph.defCount,
      sentinelPosition, noneU16, noneU32]
  · simp [nestedGraph, CodeGraph.fromRecords, storableRef_iff, CodeGraph.defCount,
      sentinelPosition, noneU16, noneU32]

theorem decode_encode_nestedGraph : ∃ bytes, encode nestedGraph = .ok bytes ∧
    ∃ g', decode bytes = .ok g' ∧ g'.Same nestedGraph :=
  ⟨_, rfl, (decode_encode _ _ rfl).mpr storable_nestedGraph⟩

/-- A graph whose only definition is its root. -/
def rootGraph (position : Option Position) : CodeGraph :=
  CodeGraph.fromRecords
    [{ moniker := utilModule, kind := [109], parent := none, position := position,
       visibility := [], signature := [], callName := [], callArity := none,
       binding := [], origin := [] }] []

theorem storable_rootGraph : Storable (rootGraph none) := by
  refine ⟨fun d hd => ?_, by simp [rootGraph, CodeGraph.fromRecords]⟩
  obtain rfl := List.mem_singleton.mp hd
  exact ⟨by simp, by simp, by simp⟩

/-- The root at the sentinel position is written like the root without a position, and
comes back without one. -/
theorem decode_encode_sentinelPosition :
    ∃ bytes g', encode (rootGraph (some sentinelPosition)) = .ok bytes ∧
      decode bytes = .ok g' ∧ ¬g'.Same (rootGraph (some sentinelPosition)) := by
  have hsame : encode (rootGraph (some sentinelPosition)) = encode (rootGraph none) := rfl
  refine ⟨_, _, rfl, decode_of_storable hsame.symm storable_rootGraph, ?_⟩
  rintro ⟨h, -⟩
  simp [rootGraph, CodeGraph.fromRecords] at h

end CodeGraphEncoding

end CodeMoniker
