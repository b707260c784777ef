import CodeMoniker.CodeGraphEncoding
import CodeMoniker.QuotedIncludes

/-!
# The extraction cache

A cached graph is stored under a key of the file (its path, its last modification, its
size) and two hashes, of the anchor and of the context. `hash_context` hashes the project,
the source set, the path aliases and the libraries of the SDK profile at the path of the
file. Extraction reads more : the profile at the anchor and, for C, the build facts
(`SameExtraction`).

A stored file is read back under a key only if the key is the one it was stored under
(`validateHeader_cacheFile`). So every graph that a run takes from the cache was extracted
by an earlier call under the same key (`Backed`), and the run returns what extraction
without a cache returns as long as calls with one key agree on the rest
(`run_returnsSame`). Where they do not, an earlier graph is returned
(`cache_returns_stale_include`).
-/

namespace CodeMoniker

open List Option ByteCodec CodeGraphEncoding

/-! ## Keys -/

/-- What `hash_context` hashes. -/
structure HashedContext where
  project : Option Bytes
  srcset : Option Bytes
  aliases : List PathAlias
  catalogDigest : Bytes
  libraries : List Bytes
  deriving DecidableEq

/-- A build of the program : its extractors and its SDK catalog, and the hasher. -/
structure CacheBuild where
  extractors : LangExtractors
  catalogDigest : Bytes
  hashPath : Bytes → UInt64
  hashContext : HashedContext → UInt64

@[ext]
structure CacheKey where
  absPath : FsPath
  mtime : UInt64
  size : UInt64
  anchorHash : UInt64
  contextHash : UInt64
  fits : absPath.bytes.length < 2 ^ 32
  deriving DecidableEq

/-- The nanoseconds as a word, `0` before the epoch. -/
def mtimeOf (modified : ℤ) : UInt64 := UInt64.ofNat modified.toNat

open CacheKey

section Keys

variable (b : CacheBuild)

def hashedContext (fs : FileSystem) (ctx : Context) (path : FsPath) : HashedContext where
  project := ctx.project
  srcset := ctx.srcset
  aliases := ctx.ts.aliases
  catalogDigest := b.catalogDigest
  libraries := (ctx.ts.sdkProfileFor fs path).libraries

def CacheKey.fromPathWithContext (fs : FileSystem) (path anchor : FsPath) (ctx : Context) :
    Option CacheKey :=
  match h : fs.canonicalize path with
  | none => none
  | some absPath =>
    (fs.metadata absPath).map fun metadata =>
      { absPath := absPath
        mtime := mtimeOf metadata.1
        size := metadata.2
        anchorHash := b.hashPath anchor.bytes
        contextHash := b.hashContext (hashedContext b fs ctx absPath)
        fits := fs.fits path absPath h }

theorem CacheKey.anchorHash_of_fromPath {fs : FileSystem} {path anchor : FsPath} {ctx : Context}
    {k : CacheKey} (h : fromPathWithContext b fs path anchor ctx = some k) :
    k.anchorHash = b.hashPath anchor.bytes := by
  unfold fromPathWithContext at h
  split at h
  · cases h
  · obtain ⟨_, -, rfl⟩ := map_eq_some_iff.mp h
    rfl

theorem CacheKey.contextHash_of_fromPath {fs : FileSystem} {path anchor : FsPath} {ctx : Context}
    {k : CacheKey} (h : fromPathWithContext b fs path anchor ctx = some k) :
    k.contextHash = b.hashContext (hashedContext b fs ctx k.absPath) := by
  unfold fromPathWithContext at h
  split at h
  · cases h
  · obtain ⟨_, -, rfl⟩ := map_eq_some_iff.mp h
    rfl

end Keys

/-- `w` digits of `n`, the most significant first. -/
def lowerHex : ℕ → ℕ → Bytes
  | 0, _ => []
  | w + 1, n =>
    lowerHex w (n / 16) ++ [UInt8.ofNat (if n % 16 < 10 then 0x30 + n % 16 else 0x57 + n % 16)]

def cacheMagic : ℕ := 0xC0DE2106

def cacheFormatVersion : ℕ := 9

namespace CacheKey

variable (b : CacheBuild) (k : CacheKey)

def pathHash : ℕ := (b.hashPath k.absPath.bytes).toNat

def filename : Bytes :=
  lowerHex 16 (k.pathHash b) ++ byteString "_" ++ lowerHex 16 k.anchorHash.toNat ++
    byteString "_" ++ lowerHex 16 k.contextHash.toNat ++ byteString ".bin"

def shard : Bytes := lowerHex 2 (k.pathHash b % 256)

def fullPath (root : FsPath) : FsPath :=
  let version :=
    byteString ("v" ++ toString layoutVersion ++ "_" ++ toString cacheFormatVersion)
  ((root.join ⟨version⟩).join ⟨k.shard b⟩).join ⟨k.filename b⟩

end CacheKey

/-! ## The stored file -/

def offMagic : ℕ := 0
def offFormat : ℕ := 4
def offMtime : ℕ := 8
def offSize : ℕ := 16
def offAnchor : ℕ := 24
def offContext : ℕ := 32
def offPathLen : ℕ := 40
def headerFixed : ℕ := offPathLen + 4

/-- The buffer that `try_store` writes. -/
def cacheFile (k : CacheKey) (body : Bytes) : Bytes :=
  toLE 4 cacheMagic ++ (toLE 4 cacheFormatVersion ++ (toLE 8 k.mtime.toNat ++
    (toLE 8 k.size.toNat ++ (toLE 8 k.anchorHash.toNat ++ (toLE 8 k.contextHash.toNat ++
      (toLE 4 k.absPath.bytes.length ++ (k.absPath.bytes ++ body)))))))

/-- The `w` bytes at `off` as a number. The callers have checked that they are there. -/
def headerWord (w off : ℕ) (bytes : Bytes) : ℕ := ofLE ((bytes.drop off).take w)

def validateHeader (bytes : Bytes) (k : CacheKey) : Option Bytes :=
  if bytes.length < headerFixed then none
  else if headerWord 4 offMagic bytes ≠ cacheMagic then none
  else if headerWord 4 offFormat bytes ≠ cacheFormatVersion then none
  else if headerWord 8 offMtime bytes ≠ k.mtime.toNat ∨ headerWord 8 offSize bytes ≠ k.size.toNat ∨
      headerWord 8 offAnchor bytes ≠ k.anchorHash.toNat ∨
      headerWord 8 offContext bytes ≠ k.contextHash.toNat then none
  else
    let pathLen := headerWord 4 offPathLen bytes
    if headerFixed + pathLen > bytes.length then none
    else if (bytes.drop headerFixed).take pathLen ≠ k.absPath.bytes then none
    else some (bytes.drop (headerFixed + pathLen))

theorem headerWord_at {w n off : ℕ} {bytes rest : Bytes} (h : At bytes off (toLE w n ++ rest))
    (hn : n < 256 ^ w) : headerWord w off bytes = n := by
  rw [headerWord, h.2, take_left' (length_toLE w n), ofLE_toLE w n hn]

@[simp] theorem word_lt (w : UInt64) : w.toNat < 256 ^ 8 := w.toNat_lt

/-- A stored file is accepted under exactly the key it was stored under. -/
theorem validateHeader_cacheFile (k k' : CacheKey) (body : Bytes) :
    validateHeader (cacheFile k body) k' = if k = k' then some body else none := by
  have h0 : At (cacheFile k body) 0 (cacheFile k body) := At.zero _
  have h4 := h0.advance
  have h8 := h4.advance
  have h16 := h8.advance
  have h24 := h16.advance
  have h32 := h24.advance
  have h40 := h32.advance
  have h44 := h40.advance
  have hbody := h44.advance
  simp only [length_toLE, Nat.zero_add, Nat.reduceAdd] at h4 h8 h16 h24 h32 h40 h44 hbody
  have hlen := hbody.length
  have hpath : k.absPath.bytes.length < 256 ^ 4 := k.fits
  have hstored : ((cacheFile k body).drop 44).take k.absPath.bytes.length = k.absPath.bytes := by
    rw [h44.2, take_left]
  simp only [validateHeader, offMagic, offFormat, offMtime, offSize, offAnchor, offContext,
    offPathLen, headerFixed, headerWord_at h0 (by decide : cacheMagic < 256 ^ 4),
    headerWord_at h4 (by decide : cacheFormatVersion < 256 ^ 4), headerWord_at h8 (word_lt _),
    headerWord_at h16 (word_lt _), headerWord_at h24 (word_lt _), headerWord_at h32 (word_lt _),
    headerWord_at h40 hpath, hstored, hbody.2]
  have hkeys : k = k' ↔ (k.mtime.toNat = k'.mtime.toNat ∧ k.size.toNat = k'.size.toNat ∧
      k.anchorHash.toNat = k'.anchorHash.toNat ∧ k.contextHash.toNat = k'.contextHash.toNat) ∧
      k.absPath.bytes = k'.absPath.bytes := by
    rw [CacheKey.ext_iff, FsPath.ext_iff]
    simp only [UInt64.toNat_inj]
    tauto
  rw [if_neg (by omega), if_neg (by simp), if_neg (by simp)]
  by_cases hwords : k.mtime.toNat = k'.mtime.toNat ∧ k.size.toNat = k'.size.toNat ∧
      k.anchorHash.toNat = k'.anchorHash.toNat ∧ k.contextHash.toNat = k'.contextHash.toNat
  · rw [if_neg (by tauto), if_neg (by omega)]
    by_cases hpaths : k.absPath.bytes = k'.absPath.bytes
    · rw [if_neg (not_not_intro hpaths), if_pos (hkeys.mpr ⟨hwords, hpaths⟩)]
    · rw [if_pos hpaths, if_neg fun h => hpaths (hkeys.mp h).2]
  · rw [if_pos (by tauto), if_neg fun h => hwords (hkeys.mp h).1]

/-! ## Calls -/

inductive SourceReader where
  | readSource
  | readSourceLossy
  deriving DecidableEq

/-- One call, with what the file system is and lets through while it runs. -/
structure CacheCall where
  path : FsPath
  anchor : FsPath
  lang : Lang
  cacheDir : Option FsPath
  ctx : Context
  fs : FileSystem
  reader : SourceReader
  /-- the cached file can be opened, and a new one written -/
  readable : Bool
  writable : Bool

inductive CallFailure where
  | io
  | panic
  deriving DecidableEq

inductive WorkspaceCacheOutcome where
  | hit
  | miss
  | disabled
  deriving DecidableEq

def SourceReader.read : SourceReader → Bytes → Option SourceText
  | readSource, bytes => if h : Utf8.Valid bytes then some ⟨bytes, h⟩ else none
  | readSourceLossy, bytes => some ⟨Utf8.fromUtf8Lossy bytes, Utf8.valid_fromUtf8Lossy bytes⟩

/-- On valid text the two readers return the same. -/
theorem SourceReader.read_of_valid {bytes : Bytes} (h : Utf8.Valid bytes) :
    ∀ reader : SourceReader, reader.read bytes = some ⟨bytes, h⟩
  | readSource => by simp [read, h]
  | readSourceLossy => by simp [read, h.fromUtf8Lossy]

/-- The cached files by their paths. -/
abbrev CacheFiles := FsPath → Option Bytes

section Calls

variable (b : CacheBuild)

namespace CacheCall

variable (call : CacheCall)

def key : Option CacheKey :=
  CacheKey.fromPathWithContext b call.fs call.path call.anchor call.ctx

def source : Option SourceText :=
  (call.fs.read call.path).bind call.reader.read

/-- Reading the file and extracting it. -/
def extract : Except CallFailure (CodeGraph × SourceText) :=
  match call.source with
  | none => .error .io
  | some source =>
    match extractWith b.extractors call.fs call.lang source call.anchor call.ctx with
    | none => .error .panic
    | some graph => .ok (graph, source)

def load (files : CacheFiles) (dir : FsPath) (key : CacheKey) :
    Option CodeGraph :=
  (if call.readable then files (key.fullPath b dir) else none).bind fun bytes =>
    (validateHeader bytes key).bind fun body => (decode body).toOption

def store (files : CacheFiles) (dir : FsPath) (key : CacheKey)
    (graph : CodeGraph) : CacheFiles :=
  match encode graph with
  | .ok body =>
    if call.writable then Function.update files (key.fullPath b dir) (some (cacheFile key body))
    else files
  | .error _ => files

abbrev Result := Except CallFailure (CodeGraph × Option SourceText × WorkspaceCacheOutcome)

/-- The cache directory and the key, if there are both. -/
def entry : Option (FsPath × CacheKey) :=
  call.cacheDir.bind fun dir => (call.key b).map fun key => (dir, key)

/-- `load_or_extract_result_with_outcome`. -/
def loadOrExtract (files : CacheFiles) : Result × CacheFiles :=
  match call.entry b with
  | some (dir, key) =>
    match call.load b files dir key with
    | some graph => (.ok (graph, none, .hit), files)
    | none =>
      match call.extract b with
      | .error e => (.error e, files)
      | .ok (graph, source) =>
        (.ok (graph, some source, .miss), call.store b files dir key graph)
  | none =>
    match call.extract b with
    | .error e => (.error e, files)
    | .ok (graph, source) => (.ok (graph, some source, .disabled), files)

/-- Calls one after the other, on the files that the earlier ones leave. -/
def run (files : CacheFiles) : List CacheCall → List Result
  | [] => []
  | call :: calls =>
    (call.loadOrExtract b files).1 :: run (call.loadOrExtract b files).2 calls

/-- The call without its cache directory. -/
def uncached : CacheCall := { call with cacheDir := none }

/-- The same failure, or graphs that are equal. -/
inductive ReturnsSame : Result → Result → Prop
  | ok {g g' : CodeGraph} {source source' : Option SourceText}
      {outcome outcome' : WorkspaceCacheOutcome} (h : g.Same g') :
      ReturnsSame (.ok (g, source, outcome)) (.ok (g', source', outcome'))
  | error (e : CallFailure) : ReturnsSame (.error e) (.error e)

/-! ## Agreement of calls -/

/-- The two calls are of one language, read the text alike and extract alike. -/
structure Agree (first call : CacheCall) : Prop where
  lang : first.lang = call.lang
  reader : first.reader = call.reader ∨
    ∀ bytes, first.fs.read first.path = some bytes → Utf8.Valid bytes
  extraction : SameExtraction first.lang first.anchor first.fs first.ctx call.fs call.ctx

/-- The hashes tell the two calls apart, and the file is what its path, modification time
and size say. -/
structure Faithful (first call : CacheCall) : Prop where
  anchor : b.hashPath first.anchor.bytes = b.hashPath call.anchor.bytes →
    first.anchor = call.anchor
  context : ∀ k k', first.key b = some k → call.key b = some k' →
    b.hashContext (hashedContext b first.fs first.ctx k.absPath) =
      b.hashContext (hashedContext b call.fs call.ctx k'.absPath) →
    hashedContext b first.fs first.ctx k.absPath = hashedContext b call.fs call.ctx k'.absPath
  content : ∀ k k', first.key b = some k → call.key b = some k' → k.absPath = k'.absPath →
    k.mtime = k'.mtime → k.size = k'.size →
    first.fs.read first.path = call.fs.read call.path

/-- The codec gives back the graph of the call. -/
def RoundTrips : Prop :=
  ∀ g source bytes, call.extract b = .ok (g, source) → encode g = .ok bytes →
    ∃ g', decode bytes = .ok g' ∧ g'.Same g

end CacheCall

end Calls

/-- Equal hashed contexts agree on what every language reads. -/
theorem SameShared.of_hashed {b : CacheBuild} {fs fs' : FileSystem} {ctx ctx' : Context}
    {path path' : FsPath} (h : hashedContext b fs ctx path = hashedContext b fs' ctx' path') :
    SameShared ctx ctx' := by
  simp only [hashedContext, HashedContext.mk.injEq] at h
  exact ⟨h.1, h.2.1, h.2.2.1⟩

open CacheCall

namespace CacheCall

variable {b : CacheBuild}

/-- Calls under one key that agree extract the same. -/
theorem Agree.extract {first call : CacheCall} {k : CacheKey} (h : Agree first call)
    (hfaithful : Faithful b first call) (hfirst : first.key b = some k)
    (hcall : call.key b = some k) : first.extract b = call.extract b := by
  have hanchor : first.anchor = call.anchor := hfaithful.anchor <| by
    rw [← anchorHash_of_fromPath b hfirst, ← anchorHash_of_fromPath b hcall]
  have hshared : SameShared first.ctx call.ctx :=
    .of_hashed <| hfaithful.context k k hfirst hcall <| by
      rw [← contextHash_of_fromPath b hfirst, ← contextHash_of_fromPath b hcall]
  have hread : first.fs.read first.path = call.fs.read call.path :=
    hfaithful.content k k hfirst hcall rfl rfl rfl
  have hsource : first.source = call.source := by
    unfold source
    rcases h.reader with hreader | hvalid
    · rw [hread, hreader]
    · rw [← hread]
      cases hbytes : first.fs.read first.path with
      | none => rfl
      | some bytes =>
        simp only [bind_some, SourceReader.read_of_valid (hvalid bytes hbytes)]
  unfold CacheCall.extract
  rw [← hsource, ← h.lang, ← hanchor]
  cases first.source with
  | none => rfl
  | some source => simp only [h.extraction.extractWith hshared b.extractors source]

/-! ## Runs -/

/-- Every file of the cache was written by one of the calls, from the graph it extracted. -/
def Backed (b : CacheBuild) (earlier : List CacheCall) (files : CacheFiles) : Prop :=
  ∀ path bytes, files path = some bytes → ∃ first ∈ earlier, ∃ k g source body,
    first.cacheDir.isSome ∧ first.key b = some k ∧ first.extract b = .ok (g, source) ∧
      encode g = .ok body ∧ bytes = cacheFile k body

theorem backed_empty (b : CacheBuild) : Backed b [] fun _ => none := fun _ _ h => nomatch h

variable {earlier : List CacheCall} {files : CacheFiles}

theorem Backed.mono (h : Backed b earlier files)
    (call : CacheCall) : Backed b (earlier ++ [call]) files := by
  intro path bytes hbytes
  obtain ⟨first, hfirst, hrest⟩ := h path bytes hbytes
  exact ⟨first, mem_append_left _ hfirst, hrest⟩

theorem Backed.store (h : Backed b earlier files)
    {call : CacheCall} {dir : FsPath} {k : CacheKey} {g : CodeGraph} {source : SourceText}
    (hdir : call.cacheDir.isSome) (hkey : call.key b = some k)
    (hextract : call.extract b = .ok (g, source)) :
    Backed b (earlier ++ [call]) (call.store b files dir k g) := by
  unfold CacheCall.store
  cases hencode : encode g with
  | error e => exact h.mono call
  | ok body =>
    by_cases hwritable : call.writable
    · simp only [hwritable, if_true]
      generalize k.fullPath b dir = target
      intro path bytes hbytes
      by_cases hpath : path = target
      · subst hpath
        rw [Function.update_self, Option.some.injEq] at hbytes
        exact ⟨call, by simp, k, g, source, body, hdir, hkey, hextract, hencode, hbytes.symm⟩
      · rw [Function.update_of_ne hpath] at hbytes
        exact h.mono call path bytes hbytes
    · simp only [hwritable]
      exact h.mono call

/-- What `load` returns was extracted by an earlier call under the key. -/
theorem Backed.load (h : Backed b earlier files)
    {call : CacheCall} {dir : FsPath} {k : CacheKey} {g' : CodeGraph}
    (hload : call.load b files dir k = some g') :
    ∃ first ∈ earlier, ∃ g source body, first.cacheDir.isSome ∧ first.key b = some k ∧
      first.extract b = .ok (g, source) ∧ encode g = .ok body ∧ decode body = .ok g' := by
  simp only [CacheCall.load, bind_eq_some_iff] at hload
  obtain ⟨bytes, hbytes, body', hbody', hdecode⟩ := hload
  have hfile : files (k.fullPath b dir) = some bytes := by
    split_ifs at hbytes
    exact hbytes
  obtain ⟨first, hfirst, k', g, source, body, hdir, hkey, hextract, hencode, rfl⟩ :=
    h _ _ hfile
  rw [validateHeader_cacheFile] at hbody'
  split_ifs at hbody' with hk
  subst hk
  obtain rfl := some.inj hbody'
  refine ⟨first, hfirst, g, source, body, hdir, hkey, hextract, hencode, ?_⟩
  cases hd : decode body with
  | error e => simp [hd, Except.toOption] at hdecode
  | ok g'' =>
    have : g'' = g' := by simpa [hd, Except.toOption] using hdecode
    rw [this]

theorem entry_eq_some {call : CacheCall} {dir : FsPath} {key : CacheKey}
    (h : call.entry b = some (dir, key)) : call.cacheDir.isSome ∧ call.key b = some key := by
  unfold entry at h
  obtain ⟨dir', hdir, h⟩ := bind_eq_some_iff.mp h
  obtain ⟨key', hkey, h⟩ := map_eq_some_iff.mp h
  obtain ⟨rfl, rfl⟩ := Prod.mk.inj h
  exact ⟨isSome_of_mem hdir, hkey⟩

theorem Backed.loadOrExtract (h : Backed b earlier files) (call : CacheCall) :
    Backed b (earlier ++ [call]) (call.loadOrExtract b files).2 := by
  unfold CacheCall.loadOrExtract
  rcases hentry : call.entry b with _ | ⟨dir, key⟩
  · cases call.extract b <;> exact h.mono call
  · obtain ⟨hdir, hkey⟩ := entry_eq_some hentry
    cases hload : call.load b files dir key with
    | some graph =>
      simp only [hload]
      exact h.mono call
    | none =>
      simp only [hload]
      cases hextract : call.extract b with
      | error e => exact h.mono call
      | ok result => exact h.store hdir hkey hextract

theorem uncached_loadOrExtract (call : CacheCall) (files : CacheFiles) :
    (call.uncached.loadOrExtract b files).1 =
      (call.extract b).map fun result => (result.1, some result.2, .disabled) := by
  have hextract : call.uncached.extract b = call.extract b := rfl
  simp only [loadOrExtract, hextract]
  cases call.extract b <;> rfl

/-- The condition on a call and an earlier one : under one key they agree. -/
def AgreeOnKey (b : CacheBuild) (first call : CacheCall) : Prop :=
  first.cacheDir.isSome → call.cacheDir.isSome → (∃ k, first.key b = some k ∧ call.key b = some k) →
    Agree first call

/-- One step : a call returns what it returns without a cache, on files that calls have
written with which it agrees. -/
theorem loadOrExtract_returnsSame {call : CacheCall} (h : Backed b earlier files)
    (hfaithful : ∀ first ∈ earlier, Faithful b first call)
    (htrips : ∀ first ∈ earlier, RoundTrips b first)
    (hagree : ∀ first ∈ earlier, AgreeOnKey b first call) :
    ReturnsSame (call.loadOrExtract b files).1 (call.uncached.loadOrExtract b fun _ => none).1 := by
  rw [uncached_loadOrExtract]
  unfold loadOrExtract
  rcases hentry : call.entry b with _ | ⟨dir, key⟩
  · cases call.extract b with
    | error e => exact .error e
    | ok result => exact .ok ⟨rfl, rfl⟩
  · obtain ⟨hdir, hkey⟩ := entry_eq_some hentry
    cases hload : call.load b files dir key with
    | none =>
      simp only [hload]
      cases call.extract b with
      | error e => exact .error e
      | ok result => exact .ok ⟨rfl, rfl⟩
    | some graph =>
      obtain ⟨first, hfirst, g, source, body, hfirstDir, hfirstKey, hextract, hencode, hdecode⟩ :=
        h.load hload
      obtain ⟨g', hg', hsame⟩ := htrips first hfirst g source body hextract hencode
      have hgraph : g' = graph := Except.ok.inj (hg'.symm.trans hdecode)
      have hcall : call.extract b = .ok (g, source) := by
        rw [← (hagree first hfirst hfirstDir hdir ⟨key, hfirstKey, hkey⟩).extract
          (hfaithful first hfirst) hfirstKey hkey, hextract]
      simp only [hload, hcall, ← hgraph]
      exact .ok hsame

/-- What one call stores, the next call under its key finds. -/
theorem loadOrExtract_of_stored {first call : CacheCall} {files : CacheFiles} {dir : FsPath}
    {key : CacheKey} {g g' : CodeGraph} {source : SourceText} {body : Bytes}
    (hfirst : first.entry b = some (dir, key)) (hcall : call.entry b = some (dir, key))
    (hmiss : first.load b files dir key = none) (hextract : first.extract b = .ok (g, source))
    (hwritable : first.writable = true) (hreadable : call.readable = true)
    (hencode : encode g = .ok body) (hdecode : decode body = .ok g') :
    (call.loadOrExtract b (first.loadOrExtract b files).2).1 = .ok (g', none, .hit) := by
  have hfiles : (first.loadOrExtract b files).2 =
      Function.update files (key.fullPath b dir) (some (cacheFile key body)) := by
    simp only [loadOrExtract, hfirst, hmiss, hextract, store, hencode, hwritable, if_true]
  have hload : call.load b (first.loadOrExtract b files).2 dir key = some g' := by
    rw [hfiles, load, if_pos hreadable]
    generalize key.fullPath b dir = target
    rw [Function.update_self, bind_some, validateHeader_cacheFile, if_pos rfl, bind_some, hdecode]
    rfl
  rw [loadOrExtract.eq_1 b call, hcall]
  simp only [hload]

/-- A whole run : the results are those of the calls without a cache. -/
theorem run_returnsSame_of_backed : ∀ (calls : List CacheCall) {earlier : List CacheCall}
    {files : CacheFiles}, Backed b earlier files → (∀ call ∈ earlier ++ calls, RoundTrips b call) →
    (∀ first ∈ earlier, ∀ call ∈ calls, Faithful b first call ∧ AgreeOnKey b first call) →
    calls.Pairwise (fun first call => Faithful b first call ∧ AgreeOnKey b first call) →
    Forall₂ (fun call result =>
      ReturnsSame result (call.uncached.loadOrExtract b fun _ => none).1) calls (run b files calls)
  | [], _, _, _, _, _, _ => .nil
  | call :: calls, earlier, files, hbacked, htrips, hearlier, hpairs => by
    obtain ⟨hcall, hpairs⟩ := pairwise_cons.mp hpairs
    refine .cons (loadOrExtract_returnsSame hbacked
      (fun first hfirst => (hearlier first hfirst call mem_cons_self).1)
      (fun first hfirst => htrips first (mem_append_left _ hfirst))
      (fun first hfirst => (hearlier first hfirst call mem_cons_self).2)) ?_
    refine run_returnsSame_of_backed calls (hbacked.loadOrExtract call)
      (by simpa using htrips) (fun first hfirst later hlater => ?_) hpairs
    rcases mem_append.mp hfirst with hfirst | hfirst
    · exact hearlier first hfirst later (mem_cons_of_mem _ hlater)
    · obtain rfl := mem_singleton.mp hfirst
      exact hcall later hlater

theorem run_returnsSame {calls : List CacheCall} (htrips : ∀ call ∈ calls, RoundTrips b call)
    (hfaithful : calls.Pairwise (Faithful b)) (hagree : calls.Pairwise (AgreeOnKey b)) :
    Forall₂ (fun call result =>
      ReturnsSame result (call.uncached.loadOrExtract b fun _ => none).1) calls
      (run b (fun _ => none) calls) :=
  run_returnsSame_of_backed calls (backed_empty b) (by simpa using htrips)
    (fun first hfirst => nomatch hfirst) (hfaithful.and hagree)

end CacheCall

/-! ## Transparency -/

/-- For every build of the program : two contexts with one key and hashes that tell them
apart lead to the same graph, whatever the extractors, if and only if they agree on what
the language reads; every run whose calls under one key agree returns what its calls return
without a cache; and a stored file is accepted under the key it was stored under and no
other, with the stored body. -/
theorem cache_transparent_iff (b : CacheBuild) : (∀ lang path anchor fs fs' ctx ctx' k,
      CacheKey.fromPathWithContext b fs path anchor ctx = some k →
      CacheKey.fromPathWithContext b fs' path anchor ctx' = some k →
      (b.hashContext (hashedContext b fs ctx k.absPath) =
        b.hashContext (hashedContext b fs' ctx' k.absPath) →
        hashedContext b fs ctx k.absPath = hashedContext b fs' ctx' k.absPath) →
      ((∀ e source, extractWith e fs lang source anchor ctx =
        extractWith e fs' lang source anchor ctx') ↔ SameExtraction lang anchor fs ctx fs' ctx')) ∧
    (∀ calls : List CacheCall, (∀ call ∈ calls, call.RoundTrips b) →
      calls.Pairwise (CacheCall.Faithful b) → calls.Pairwise (CacheCall.AgreeOnKey b) →
      List.Forall₂ (fun call result =>
        CacheCall.ReturnsSame result (call.uncached.loadOrExtract b fun _ => none).1) calls
        (CacheCall.run b (fun _ => none) calls)) ∧
    ∀ k k' body found, validateHeader (cacheFile k body) k' = some found ↔
      k.absPath = k'.absPath ∧ k.mtime = k'.mtime ∧ k.size = k'.size ∧
        k.anchorHash = k'.anchorHash ∧ k.contextHash = k'.contextHash ∧ found = body := by
  refine ⟨fun lang path anchor fs fs' ctx ctx' k hk hk' hhash => ?_, fun calls => ?_, ?_⟩
  · refine sameExtraction_iff (.of_hashed (hhash ?_))
    rw [← CacheKey.contextHash_of_fromPath b hk, ← CacheKey.contextHash_of_fromPath b hk']
  · exact CacheCall.run_returnsSame
  · intro k k' body found
    rw [validateHeader_cacheFile]
    by_cases hk : k = k'
    · subst hk
      simp [eq_comm]
    · rw [if_neg hk]
      refine ⟨fun h => (nomatch h), ?_⟩
      rintro ⟨h1, h2, h3, h4, h5, -⟩
      exact absurd (CacheKey.ext h1 h2 h3 h4 h5) hk

/-! ## A C file with one include -/

/-- The root of a C file. -/
def computeModuleMoniker (anchor : Moniker) (uri : Bytes) : Option Moniker :=
  let pieces := (pathPieces (withoutSuffix (byteString ".c") uri)).filter fun piece =>
    ¬isCurDirPiece piece
  let segments := anchor.segments ++ ⟨byteString "lang", byteString "c"⟩ ::
    pieceSegments (byteString "dir") (byteString "module") [] pieces
  (MonikerBuilder.mk anchor.project segments).tryMoniker.toOption

/-- The text of a file that is one quoted include. -/
def includeText (inner : Bytes) : Bytes :=
  byteString "#include \"" ++ inner ++ byteString "\"\n"

/-- The graph of such a file : its root and the reference of the include. -/
def includeGraph (module target : Moniker) (ref : IncludeRef) (length : ℕ) :
    Except CodeGraph.GraphError CodeGraph :=
  (CodeGraph.withRoot module (byteString "module")).addRefAttrs module target
    (byteString "imports_module") (some (0, UInt32.ofNat length))
    { receiverHint := ref.receiverHint, confidence := ref.confidence }

/-- The C extractor on the file `#include "postgres.h"`, and no other extractor. -/
def includeExtractors : LangExtractors where
  ts _ _ _ _ _ := none
  c uri source anchor presets :=
    if source.bytes = includeText (byteString "postgres.h") then do
      let module ← computeModuleMoniker anchor uri
      let ref := quotedInclude module (byteString "postgres.h") presets
      let target ← ref.target.tryMoniker.toOption
      (includeGraph module target ref source.bytes.length).toOption
    else none
  plain _ _ _ _ := none

def extModule : Moniker := dotMoniker [("lang", "c"), ("module", "ext")] (by decide)

/-- The workspace of an extension, with or without the package in its `Makefile`. -/
def extContext (package : Option Bytes) : Context where
  c :=
    { root := ⟨byteString "/w"⟩
      includePaths := [⟨byteString "/w"⟩]
      workspaceFiles := {byteString "Makefile", byteString "ext.c"}
      externalIncludePackage := package }
  ts := { aliases := [], root := ⟨byteString "/w"⟩, defaultSdkProfile := ⟨[]⟩, sdkProfiles := [] }
  project := none
  srcset := none

def extFileSystem : FileSystem where
  canonicalize p :=
    if p.bytes = byteString "ext.c" ∨ p.bytes = byteString "/w/ext.c" then
      some ⟨byteString "/w/ext.c"⟩
    else none
  currentDir := some ⟨byteString "/w"⟩
  metadata _ := some (1, 22)
  read _ := some (includeText (byteString "postgres.h"))
  fits p q h := by
    split_ifs at h
    obtain rfl := Option.some.inj h
    decide

def extBuild : CacheBuild where
  extractors := includeExtractors
  catalogDigest := []
  hashPath bytes := UInt64.ofNat (ofLE bytes)
  hashContext hashed := UInt64.ofNat hashed.aliases.length

def extCall (package : Option Bytes) : CacheCall where
  path := ⟨byteString "/w/ext.c"⟩
  anchor := ⟨byteString "ext.c"⟩
  lang := .c
  cacheDir := some ⟨byteString "/cache"⟩
  ctx := extContext package
  fs := extFileSystem
  reader := .readSourceLossy
  readable := true
  writable := true

/-- The graph with the include in the package. -/
def packageGraph : CodeGraph where
  defs := (CodeGraph.withRoot extModule (byteString "module")).defs
  refs :=
    [{ source := 0
       target := dotMoniker [("external_pkg", "postgresql"), ("path", "postgres")] (by decide)
       kind := byteString "imports_module", position := some (0, 22)
       receiverHint := byteString "c_build_dependency", aliasName := []
       confidence := byteString "external", callName := [], callArity := none
       binding := byteString "import" }]
  index := (CodeGraph.withRoot extModule (byteString "module")).index
  defMonikersCache := none
  refTargetsCache := none

/-- The graph with the include in the workspace. -/
def workspaceGraph : CodeGraph where
  defs := packageGraph.defs
  refs :=
    [{ source := 0
       target := dotMoniker [("lang", "c"), ("module", "postgres.h")] (by decide)
       kind := byteString "imports_module", position := some (0, 22)
       receiverHint := [], aliasName := []
       confidence := byteString "imported", callName := [], callArity := none
       binding := byteString "import" }]
  index := packageGraph.index
  defMonikersCache := none
  refTargetsCache := none

theorem not_same_packageGraph : ¬packageGraph.Same workspaceGraph := by
  rintro ⟨-, h⟩
  have hhints := congrArg (List.map (·.receiverHint)) h
  revert hhints
  decide

variable (package : Option Bytes)

theorem pathAnchor_ext :
    pathAnchor ⟨byteString "ext.c"⟩ (extContext package) = some (dotMoniker [] (by decide)) := by
  have hsrcset : srcset ⟨byteString "ext.c"⟩ = none := by decide
  simp only [pathAnchor, extContext, hsrcset]
  exact @dotMoniker_of_tryMoniker [] _

theorem computeModuleMoniker_ext :
    computeModuleMoniker (dotMoniker [] (by decide)) (byteString "ext.c") = some extModule := by
  have hpieces : (pathPieces (withoutSuffix (byteString ".c") (byteString "ext.c"))).filter
      (fun piece => ¬isCurDirPiece piece) = [byteString "ext"] := by decide
  simp only [computeModuleMoniker, hpieces, dotMoniker, Moniker.segments_ofParts,
    Moniker.project_ofParts]
  exact @dotMoniker_of_tryMoniker [("lang", "c"), ("module", "ext")] _

/-- The presets of the workspace : the include root is the root of the project. -/
theorem extractionPresets_ext : (extContext package).c.extractionPresets extFileSystem =
      { includePaths := [[]]
        workspaceFiles := {byteString "Makefile", byteString "ext.c"}
        externalIncludePackage := package } := by
  have hroot : projectRelativePath extFileSystem ⟨byteString "/w"⟩ ⟨byteString "/w"⟩ = some [] := by
    decide
  simp only [CBuildContext.extractionPresets, extContext, filterMap_cons, filterMap_nil, hroot]

theorem segments_extModule :
    extModule.segments = [("lang", "c"), ("module", "ext")].map segmentOf := by
  unfold extModule dotMoniker
  exact Moniker.segments_ofParts _ _

theorem project_extModule : extModule.project = byteString "." := by
  unfold extModule dotMoniker
  exact Moniker.project_ofParts _ _

theorem resolvedWorkspacePath_ext : resolvedWorkspacePath extModule (byteString "postgres.h")
      { includePaths := [[]]
        workspaceFiles := {byteString "Makefile", byteString "ext.c"}
        externalIncludePackage := package } = none := by
  have hnone : resolvedWorkspacePath extModule (byteString "postgres.h")
      ⟨[[]], {byteString "Makefile", byteString "ext.c"}, none⟩ = none := by
    simp only [resolvedWorkspacePath, rootDirs, segments_extModule]
    decide
  exact (resolvedWorkspacePath_package _ _ ⟨_, _, none⟩ package).trans hnone

theorem not_escapes_ext :
    quotedIncludeEscapesWorkspace extModule (byteString "postgres.h") = false := by
  simp only [quotedIncludeEscapesWorkspace, rootDirs, segments_extModule]
  decide

/-- The text of the file. -/
def extSource : SourceText := ⟨includeText (byteString "postgres.h"), by decide⟩

theorem source_ext : (extCall package).source = some extSource := by
  have hread : SourceReader.read .readSourceLossy (includeText (byteString "postgres.h")) =
      some extSource := by decide
  exact hread

/-- Extraction of the file, from the reference of its include. -/
theorem extract_ext {package : Option Bytes} {path : List (String × String)}
    (h : ∀ s ∈ path.map segmentOf, s.Admitted) {confidence hint : Bytes} {g : CodeGraph}
    (href : quotedInclude extModule (byteString "postgres.h")
      ⟨[[]], {byteString "Makefile", byteString "ext.c"}, package⟩ =
        ⟨⟨byteString ".", path.map segmentOf⟩, confidence, hint⟩)
    (hgraph : includeGraph extModule (dotMoniker path h)
      ⟨⟨byteString ".", path.map segmentOf⟩, confidence, hint⟩ 22 = .ok g) :
    (extCall package).extract extBuild = .ok (g, extSource) := by
  have huri : (FsPath.mk (byteString "ext.c")).toStr = some (byteString "ext.c") := by decide
  have hlength : extSource.bytes.length = 22 := by decide
  have htext : extSource.bytes = includeText (byteString "postgres.h") := rfl
  simp only [CacheCall.extract, source_ext]
  simp only [extractWith, extCall, huri, pathAnchor_ext, bind_eq_bind, bind_some,
    getD_some, extBuild, includeExtractors, htext, if_true, extractionPresets_ext,
    computeModuleMoniker_ext, href, dotMoniker_of_tryMoniker h]
  rw [← htext, hlength, hgraph]
  rfl

theorem quotedInclude_package : quotedInclude extModule (byteString "postgres.h")
    ⟨[[]], {byteString "Makefile", byteString "ext.c"}, some (byteString "postgresql")⟩ =
      ⟨⟨byteString ".", [("external_pkg", "postgresql"), ("path", "postgres")].map segmentOf⟩,
        byteString "external", byteString "c_build_dependency"⟩ := by
  have howns : externalPackageOwnsInclude (byteString "postgresql") (byteString "postgres.h") =
      true := by decide
  simp only [quotedInclude, resolvedWorkspacePath_ext, not_escapes_ext, howns, if_true,
    declaredExternalIncludeTarget, project_extModule]
  decide

theorem quotedInclude_workspace : quotedInclude extModule (byteString "postgres.h")
    ⟨[[]], {byteString "Makefile", byteString "ext.c"}, none⟩ =
      ⟨⟨byteString ".", [("lang", "c"), ("module", "postgres.h")].map segmentOf⟩,
        byteString "imported", []⟩ := by
  simp only [quotedInclude, resolvedWorkspacePath_ext, not_escapes_ext, workspaceIncludeTarget,
    project_extModule, segments_extModule]
  decide

theorem extract_package : (extCall (some (byteString "postgresql"))).extract extBuild =
    .ok (packageGraph, extSource) :=
  extract_ext _ quotedInclude_package rfl

theorem extract_workspace : (extCall none).extract extBuild = .ok (workspaceGraph, extSource) :=
  extract_ext _ quotedInclude_workspace rfl

/-- The package is not part of the key. -/
theorem exists_key_ext : ∃ k, ∀ package, (extCall package).key extBuild = some k :=
  ⟨{ absPath := ⟨byteString "/w/ext.c"⟩
     mtime := mtimeOf 1
     size := 22
     anchorHash := extBuild.hashPath (byteString "ext.c")
     contextHash := extBuild.hashContext
       (hashedContext extBuild extFileSystem (extContext none) ⟨byteString "/w/ext.c"⟩)
     fits := by decide },
    fun _ => rfl⟩

theorem faithful_ext (package package' : Option Bytes) :
    CacheCall.Faithful extBuild (extCall package) (extCall package') := by
  refine ⟨fun _ => rfl, fun k k' hk hk' _ => ?_, fun _ _ _ _ _ _ _ => rfl⟩
  have hkey : (extCall package).key extBuild = (extCall package').key extBuild := rfl
  rw [hk, hk'] at hkey
  obtain rfl := some.inj hkey
  rfl

theorem storable_ext {g : CodeGraph} (hdefs : g.defs = packageGraph.defs) {target : Moniker}
    {hint confidence : Bytes} (hrefs : g.refs =
      [{ source := 0, target := target, kind := byteString "imports_module"
         position := some (0, 22), receiverHint := hint, aliasName := []
         confidence := confidence, callName := [], callArity := none
         binding := byteString "import" }]) : Storable g := by
  refine ⟨fun d hd => ?_, fun r hr => ?_⟩
  · rw [hdefs] at hd
    obtain rfl := mem_singleton.mp hd
    exact ⟨by simp, by simp, by simp⟩
  · rw [hrefs] at hr
    obtain rfl := mem_singleton.mp hr
    refine ⟨?_, fun h => absurd (some.inj h) (by decide), by simp⟩
    simp [CodeGraph.defCount, hdefs, packageGraph, CodeGraph.withRoot]

theorem storable_packageGraph : Storable packageGraph := storable_ext rfl rfl

theorem storable_workspaceGraph : Storable workspaceGraph := storable_ext rfl rfl

theorem roundTrips_ext {package : Option Bytes} {g : CodeGraph}
    (hextract : (extCall package).extract extBuild = .ok (g, extSource)) (hg : Storable g) :
    (extCall package).RoundTrips extBuild := by
  intro g' source bytes hg' hencode
  rw [hextract] at hg'
  obtain ⟨rfl, -⟩ := Prod.mk.inj (Except.ok.inj hg')
  exact (decode_encode _ _ hencode).mpr hg

/-- The `Makefile` stops naming the package and the C file does not change : both contexts
have the key of the file, extraction gives two graphs, and the second call of a run returns
the first one. -/
theorem cache_returns_stale_include :
    (∃ k, CacheKey.fromPathWithContext extBuild extFileSystem ⟨byteString "/w/ext.c"⟩
        ⟨byteString "ext.c"⟩ (extContext (some (byteString "postgresql"))) = some k ∧
      CacheKey.fromPathWithContext extBuild extFileSystem ⟨byteString "/w/ext.c"⟩
        ⟨byteString "ext.c"⟩ (extContext none) = some k) ∧
    extractWith includeExtractors extFileSystem .c extSource ⟨byteString "ext.c"⟩
        (extContext (some (byteString "postgresql"))) ≠
      extractWith includeExtractors extFileSystem .c extSource ⟨byteString "ext.c"⟩
        (extContext none) ∧ ∃ calls : List CacheCall, (∀ call ∈ calls, call.RoundTrips extBuild) ∧
      calls.Pairwise (CacheCall.Faithful extBuild) ∧ ¬List.Forall₂ (fun call result =>
        CacheCall.ReturnsSame result (call.uncached.loadOrExtract extBuild fun _ => none).1) calls
        (CacheCall.run extBuild (fun _ => none) calls) := by
  obtain ⟨k, hk⟩ := exists_key_ext
  refine ⟨⟨k, hk _, hk _⟩, fun heq => ?_,
    [extCall (some (byteString "postgresql")), extCall none], ?_, ?_, ?_⟩
  · have hextract : (extCall (some (byteString "postgresql"))).extract extBuild =
        (extCall none).extract extBuild := by
      simp only [CacheCall.extract, source_ext]
      simp only [extCall, extBuild, heq]
    rw [extract_package, extract_workspace] at hextract
    have hgraph : packageGraph = workspaceGraph :=
      (Prod.mk.inj (Except.ok.inj hextract)).1
    exact not_same_packageGraph (hgraph ▸ ⟨rfl, rfl⟩)
  · intro call hcall
    rcases mem_cons.mp hcall with rfl | hcall
    · exact roundTrips_ext extract_package storable_packageGraph
    · obtain rfl := mem_singleton.mp hcall
      exact roundTrips_ext extract_workspace storable_workspaceGraph
  · simpa using faithful_ext _ _
  · intro h
    have hentry : ∀ package, (extCall package).entry extBuild = some (⟨byteString "/cache"⟩, k) :=
      fun package => by
        simp only [CacheCall.entry, hk package]
        rfl
    obtain ⟨body, hbody⟩ : ∃ body, encode packageGraph = .ok body := ⟨_, rfl⟩
    have hmiss : (extCall (some (byteString "postgresql"))).load extBuild (fun _ => none)
        ⟨byteString "/cache"⟩ k = none := by
      rw [CacheCall.load, ite_self]
      rfl
    have hhit := CacheCall.loadOrExtract_of_stored (hentry (some (byteString "postgresql")))
      (hentry none) hmiss extract_package rfl rfl hbody
      (decode_of_storable hbody storable_packageGraph)
    obtain ⟨-, hsecond⟩ := List.forall₂_cons.mp h
    obtain ⟨hsecond, -⟩ := List.forall₂_cons.mp hsecond
    rw [hhit, CacheCall.uncached_loadOrExtract, extract_workspace] at hsecond
    cases hsecond with
    | ok hsame => exact not_same_packageGraph ⟨hsame.1, hsame.2⟩

/-- With one context, the second call takes the graph of the first from the cache. A context with
another SDK profile leads to the same graph of the C file. -/
theorem cache_transparent_ext : List.Forall₂ (fun call result =>
      CacheCall.ReturnsSame result (call.uncached.loadOrExtract extBuild fun _ => none).1)
      [extCall none, extCall none]
      (CacheCall.run extBuild (fun _ => none) [extCall none, extCall none]) ∧
    ∀ e source, extractWith e extFileSystem .c source ⟨byteString "ext.c"⟩ (extContext none) =
      extractWith e extFileSystem .c source ⟨byteString "ext.c"⟩ { extContext none with
        ts := { (extContext none).ts with defaultSdkProfile := ⟨[byteString "dom"]⟩ } } := by
  obtain ⟨k, hk⟩ := exists_key_ext
  refine ⟨(cache_transparent_iff extBuild).2.1 _ (fun call hcall => ?_)
    (by simpa using faithful_ext none none) ?_,
    ((cache_transparent_iff extBuild).1 .c _ _ _ _ _ _ k (hk none) (hk none) fun _ => rfl).mpr
      (Or.inr rfl)⟩
  · obtain rfl : call = extCall none := by simpa using hcall
    exact roundTrips_ext extract_workspace storable_workspaceGraph
  · have hagree : CacheCall.AgreeOnKey extBuild (extCall none) (extCall none) :=
      fun _ _ _ => ⟨rfl, Or.inl rfl, Or.inr rfl⟩
    simpa using hagree

end CodeMoniker
