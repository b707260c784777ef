import CodeMoniker.ExtractionContext
import CodeMoniker.QueryValues

/-!
# Labels of source roots

In a workspace of several roots the paths of a file start with the label of its root.
`unique_labels` labels a root with its base name, and from the second root of one base name
on it adds the number of the root among them. Such a label may be the base name of another
root. `labels_apart_iff` says that nothing else brings two labels together, and that
files of different roots have different paths when no label is taken.
-/

namespace CodeMoniker

open List ByteCodec Query

/-! ## Labels -/

/-- `Path::file_stem`. A name with one dot, in front, is its own stem. -/
def FsPath.fileStem (p : FsPath) : Option Bytes :=
  p.fileName.map fun name =>
    match name.reverse.dropWhile (· ≠ 0x2e) with
    | [] | [_] => name
    | _ :: before => before.reverse

def baseLabel (path : FsPath) (idx : ℕ) : List Char :=
  (((path.fileStem.or path.fileName).bind Utf8.decode?).filter (· ≠ [])).getD
    ("source".toList ++ formatNat (idx + 1))

def baseLabels (paths : List FsPath) : List (List Char) :=
  paths.zipIdx.map fun e => baseLabel e.1 e.2

def numbered (label : List Char) (count : ℕ) : List Char :=
  if count = 1 then label else label ++ '-' :: formatNat count

/-- The labels from here on, where `seen` counts the base names up to here. -/
def labelsFrom (seen : List Char → ℕ) : List (List Char) → List (List Char)
  | [] => []
  | label :: rest =>
    numbered label (seen label + 1) ::
      labelsFrom (Function.update seen label (seen label + 1)) rest

def uniqueLabels (paths : List FsPath) : List (List Char) :=
  labelsFrom (fun _ => 0) (baseLabels paths)

/-! ## Paths of a file -/

/-- `PathBuf::pop` on the components of a path. -/
def pop (parts : List Component) : List Component :=
  if parts = [.rootDir] then parts else parts.dropLast

def pushPart (out : List Component) : Component → List Component
  | .rootDir => [.rootDir]
  | .curDir => out
  | .parentDir => pop out
  | .normal name => out ++ [.normal name]

variable (currentDir : Option FsPath)

/-- The components of the normalised path. -/
def normalizeAbsolute (path : FsPath) : Option (List Component) :=
  (if path.isAbsolute then some path.components
    else currentDir.map fun dir => dir.components ++ path.components).map (·.foldl pushPart [])

def portablePathBuf (path : FsPath) : FsPath := ⟨path.toStringLossy⟩

/-- The path of a file under a root, or all of it where it is elsewhere. -/
def relIn (root path : FsPath) : List Component :=
  let parts := (normalizeAbsolute currentDir path).getD path.components
  (parts.dropPrefix? ((normalizeAbsolute currentDir root).getD root.components)).getD parts

/-- `rel_path` of a file where there are several roots. -/
def multiRelPath (label : List Char) (root path : FsPath) : FsPath :=
  portablePathBuf ((FsPath.mk (Utf8.encode label)).join
    (FsPath.ofComponents (relIn currentDir root path)))

/-- The anchor of a file where there are several roots. -/
def multiAnchor (label : List Char) (root path : FsPath) : FsPath :=
  portablePathBuf (multiRelPath currentDir label root path)

/-- The file was found by names from the root on. -/
def FsPath.Under (root path : FsPath) : Prop :=
  ∃ names : List Bytes, path.components = root.components ++ names.map .normal

/-! ## Numbered names -/

variable {seen : List Char → ℕ} {bases : List (List Char)} {label label' : List Char}
  {count count' : ℕ}

/-- The number at the end of a label can be read back. -/
theorem numbered_eq_numbered (hcount : count ≠ 1) (hcount' : count' ≠ 1)
    (h : numbered label count = numbered label' count') : label = label' ∧ count = count' := by
  have hdash : ∀ n, '-' ∉ (formatNat n).reverse := fun n hmem =>
    absurd (isDigit_of_mem_formatNat (mem_reverse.mp hmem)) (by decide)
  have hcut := congrArg (fun text => splitOnce '-' text.reverse) h
  simp only [numbered, if_neg hcount, if_neg hcount', reverse_append, reverse_cons,
    append_assoc, singleton_append, splitOnce_append (hdash _)] at hcut
  obtain ⟨hdigits, hlabel⟩ := Prod.mk.inj (Option.some.inj hcut)
  have hnumber := congrArg (Nat.ofDigitChars 10 · 0) (reverse_inj.mp hdigits)
  exact ⟨reverse_inj.mp hlabel,
    by simpa only [formatNat, Nat.ofDigitChars_ten_toDigits] using hnumber⟩

/-- The base names with the number of each among its equals. -/
def occurrences (seen : List Char → ℕ) : List (List Char) → List (List Char × ℕ)
  | [] => []
  | label :: rest =>
    (label, seen label + 1) ::
      occurrences (Function.update seen label (seen label + 1)) rest

theorem labelsFrom_eq : ∀ (seen : List Char → ℕ) (bases : List (List Char)),
    labelsFrom seen bases = (occurrences seen bases).map fun e => numbered e.1 e.2
  | _, [] => rfl
  | seen, label :: rest => by
    rw [labelsFrom, occurrences, map_cons, labelsFrom_eq]

theorem mem_occurrences : ∀ {seen : List Char → ℕ} {bases : List (List Char)},
    (label, count) ∈ occurrences seen bases ↔
      seen label < count ∧ count ≤ seen label + bases.count label
  | _, [] => by
    rw [occurrences, count_nil]
    exact ⟨nofun, fun h => by omega⟩
  | seen, base :: rest => by
    rw [occurrences, mem_cons, mem_occurrences, Prod.mk.injEq]
    by_cases heq : label = base
    · subst heq
      rw [Function.update_self, count_cons_self, eq_self, true_and]
      omega
    · rw [Function.update_of_ne heq, count_cons_of_ne (Ne.symm heq)]
      simp [heq]

theorem nodup_occurrences : ∀ (seen : List Char → ℕ) (bases : List (List Char)),
    (occurrences seen bases).Nodup
  | _, [] => nodup_nil
  | seen, base :: rest => by
    rw [occurrences, nodup_cons, mem_occurrences, Function.update_self]
    exact ⟨by omega, nodup_occurrences _ rest⟩

/-- Some numbered label is the base name of another root. -/
def NumberTaken (bases : List (List Char)) : Prop :=
  ∃ base count, 2 ≤ count ∧ count ≤ bases.count base ∧ numbered base count ∈ bases

theorem nodup_labelsFrom : (labelsFrom (fun _ => 0) bases).Nodup ↔ ¬NumberTaken bases := by
  have hmem : ∀ e : List Char × ℕ, e ∈ occurrences (fun _ => 0) bases ↔
      0 < e.2 ∧ e.2 ≤ bases.count e.1 := fun ⟨base, count⟩ => by
    rw [mem_occurrences, Nat.zero_add]
  rw [labelsFrom_eq, nodup_map_iff_inj_on (nodup_occurrences _ _)]
  constructor
  · rintro hinj ⟨base, count, htwo, hcount, htaken⟩
    have heq := hinj (base, count) ((hmem _).mpr ⟨by omega, hcount⟩) (numbered base count, 1)
      ((hmem _).mpr ⟨Nat.one_pos, count_pos_iff.mpr htaken⟩) rfl
    have hone : count = 1 := congrArg Prod.snd heq
    omega
  · rintro hfree ⟨base, count⟩ he ⟨base', count'⟩ he' heq
    rw [hmem] at he he'
    dsimp only at he he' heq
    by_cases hone : count = 1
    · by_cases hone' : count' = 1
      · rw [hone, hone']
        simpa [numbered, hone, hone'] using heq
      · refine absurd ⟨base', count', by omega, he'.2, ?_⟩ hfree
        rw [← heq, numbered, if_pos hone]
        exact count_pos_iff.mp (by omega)
    · by_cases hone' : count' = 1
      · refine absurd ⟨base, count, by omega, he.2, ?_⟩ hfree
        rw [heq, numbered, if_pos hone']
        exact count_pos_iff.mp (by omega)
      · obtain ⟨rfl, rfl⟩ := numbered_eq_numbered hone hone' heq
        rfl

/-! ## Labels are names -/

open Component

variable {p : FsPath}

theorem slash_notMem_of_mem_components {name : Bytes}
    (h : .normal name ∈ p.components) : 0x2f ∉ name := by
  obtain ⟨piece, hpiece, hname⟩ : ∃ piece ∈ p.bytes.splitOn 0x2f,
      ofPiece piece = .normal name := by
    simp only [FsPath.components] at h
    split_ifs at h <;>
      simp only [mem_cons, mem_map, mem_filter, reduceCtorEq, false_or] at h <;>
      obtain ⟨piece, ⟨⟨hpiece, -⟩, -⟩, hname⟩ := h <;>
      exact ⟨piece, hpiece, hname⟩
  rw [ofPiece] at hname
  split_ifs at hname
  obtain rfl := normal.inj hname
  intro hslash
  have hmem := mem_flatten_of_mem hpiece hslash
  rw [flatten_splitOn] at hmem
  simp at hmem

/-- A label is a name, which no path separator cuts. -/
structure IsLabel (label : List Char) : Prop where
  ne_nil : label ≠ []
  noSlash : '/' ∉ label

theorem slash_notMem_formatNat (n : ℕ) : '/' ∉ formatNat n := fun hmem =>
  absurd (isDigit_of_mem_formatNat hmem) (by decide)

theorem slash_notMem_fileName {name : Bytes} (h : p.fileName = some name) : 0x2f ∉ name := by
  unfold FsPath.fileName at h
  split at h
  · next name' hlast =>
    obtain rfl := Option.some.inj h
    exact slash_notMem_of_mem_components (mem_of_getLast? hlast)
  · cases h

theorem slash_notMem_fileStem {stem : Bytes} (h : p.fileStem = some stem) : 0x2f ∉ stem := by
  obtain ⟨name, hname, rfl⟩ := Option.map_eq_some_iff.mp h
  have hslash := slash_notMem_fileName hname
  split
  · exact hslash
  · exact hslash
  · next before hcut =>
    refine fun hmem => hslash (mem_reverse.mp ((dropWhile_suffix (· ≠ 0x2e)).subset ?_))
    rw [hcut]
    exact mem_cons_of_mem _ (mem_reverse.mp hmem)

theorem isLabel_baseLabel (path : FsPath) (idx : ℕ) : IsLabel (baseLabel path idx) := by
  unfold baseLabel
  cases h : ((path.fileStem.or path.fileName).bind Utf8.decode?).filter (· ≠ []) with
  | none =>
    refine ⟨by simp, fun hmem => ?_⟩
    rcases mem_append.mp hmem with hmem | hmem
    · exact absurd hmem (by decide)
    · exact slash_notMem_formatNat _ hmem
  | some label =>
    obtain ⟨hlabel, hne⟩ := Option.filter_eq_some_iff.mp h
    obtain ⟨stem, hstem, hdecode⟩ := Option.bind_eq_some_iff.mp hlabel
    have hslash : 0x2f ∉ stem := by
      rcases Option.or_eq_some_iff.mp hstem with hstem | ⟨-, hname⟩
      · exact slash_notMem_fileStem hstem
      · exact slash_notMem_fileName hname
    rw [← Utf8.decode?_eq_some_iff.mp hdecode] at hslash
    exact ⟨of_decide_eq_true hne, fun hmem =>
      hslash ((Utf8.ascii_mem_encode (a := '/') (by decide)).mpr hmem)⟩

theorem IsLabel.numbered (h : IsLabel label) (count : ℕ) : IsLabel (numbered label count) := by
  unfold CodeMoniker.numbered
  split_ifs
  · exact h
  · refine ⟨by simp, fun hmem => ?_⟩
    rcases mem_append.mp hmem with hmem | hmem
    · exact h.noSlash hmem
    · rcases mem_cons.mp hmem with hmem | hmem
      · exact absurd hmem (by decide)
      · exact slash_notMem_formatNat _ hmem

theorem isLabel_of_mem {paths : List FsPath} (h : label ∈ uniqueLabels paths) : IsLabel label := by
  rw [uniqueLabels, labelsFrom_eq] at h
  obtain ⟨⟨base, count⟩, he, rfl⟩ := mem_map.mp h
  have hbase : base ∈ baseLabels paths := count_pos_iff.mp (by
    have := mem_occurrences.mp he
    omega)
  obtain ⟨e, -, rfl⟩ := mem_map.mp hbase
  exact (isLabel_baseLabel e.1 e.2).numbered count

/-! ## Identities -/

theorem asOsStr_ofPiece (piece : Bytes) : (ofPiece piece).asOsStr = piece := by
  unfold ofPiece
  split_ifs with h
  · exact h.symm
  · rfl

/-- A path that starts with a label has it as its first component. -/
theorem IsLabel.head_components (h : IsLabel label) (rest : Bytes) :
    (FsPath.components ⟨Utf8.encode label ++ 0x2f :: rest⟩).head?.map (·.asOsStr) =
      some (Utf8.encode label) := by
  have hslash : 0x2f ∉ Utf8.encode label := fun hmem =>
    h.noSlash ((Utf8.ascii_mem_encode (a := '/') (by decide)).mp hmem)
  have hne : Utf8.encode label ≠ [] := fun heq =>
    h.ne_nil (Utf8.encode_injective (heq.trans Utf8.encode_nil.symm))
  have hrelative : FsPath.isAbsolute ⟨Utf8.encode label ++ 0x2f :: rest⟩ = false := by
    obtain ⟨b, bytes, hbytes⟩ := exists_cons_of_ne_nil hne
    rw [hbytes] at hslash ⊢
    exact beq_eq_false_iff_ne.mpr fun heq =>
      ne_of_not_mem_cons hslash (Option.some.inj heq).symm
  have hpieces : ((Utf8.encode label ++ 0x2f :: rest).splitOn 0x2f).filter (· ≠ []) =
      Utf8.encode label :: (rest.splitOn 0x2f).filter (· ≠ []) := by
    rw [splitOn_append_cons_self_of_not_mem hslash, filter_cons_of_pos (by simpa using hne)]
  simp only [FsPath.components, hrelative, hpieces, Bool.false_eq_true, if_false, head?_cons]
  split_ifs with hdot
  · rw [head?_cons, Option.map_some, Option.some.inj hdot]
    rfl
  · have hkept : Utf8.encode label ≠ byteString "." := fun heq => hdot (congrArg some heq)
    rw [filter_cons_of_pos (by simpa using hkept), map_cons, head?_cons,
      Option.map_some, asOsStr_ofPiece]

/-- The head of a text is read as it is. -/
theorem exists_lossyAux : ∀ (cs : List Char) (n : ℕ) (rest : Bytes), (Utf8.encode cs).length ≤ n →
    ∃ rest', Utf8.lossyAux n (Utf8.encode cs ++ rest) = Utf8.encode cs ++ rest'
  | [], n, rest, _ => ⟨_, rfl⟩
  | c :: cs, n, rest, hn => by
    have hsize : (String.utf8EncodeChar c).length = c.utf8Size := String.length_utf8EncodeChar c
    have hpos : 0 < c.utf8Size := c.utf8Size_pos
    rw [Utf8.encode_cons, length_append, hsize] at hn
    obtain ⟨n, rfl⟩ : ∃ m, n = m + 1 := ⟨n - 1, by omega⟩
    rw [Utf8.encode_cons, append_assoc]
    obtain ⟨b, bytes, hbytes⟩ := exists_cons_of_ne_nil (append_ne_nil_of_left_ne_nil
      (ne_nil_of_length_pos (hsize ▸ hpos)) (Utf8.encode cs ++ rest))
    obtain ⟨rest', hrest'⟩ := exists_lossyAux cs n rest (by omega)
    refine ⟨rest', ?_⟩
    have hdrop : (b :: bytes).drop c.utf8Size = Utf8.encode cs ++ rest := by
      rw [← hbytes, ← hsize, drop_left]
    rw [hbytes, Utf8.lossyAux, ← hbytes, Utf8.decodeChar_encodeChar_append]
    simp only
    rw [hbytes, hdrop, hrest', append_assoc]

/-- The path starts with the label of a root. -/
def FsPath.StartsAt (p : FsPath) (label : List Char) : Prop :=
  ∃ rest, p.bytes = Utf8.encode label ++ 0x2f :: rest

theorem FsPath.StartsAt.portablePathBuf (h : p.StartsAt label) :
    (portablePathBuf p).StartsAt label := by
  obtain ⟨rest, hrest⟩ := h
  have hsep : Utf8.encode (label ++ ['/']) = Utf8.encode label ++ [0x2f] := Utf8.encode_append ..
  have hcut : p.bytes = Utf8.encode (label ++ ['/']) ++ rest := by
    rw [hrest, hsep, append_assoc, singleton_append]
  obtain ⟨rest', hrest'⟩ := exists_lossyAux (label ++ ['/']) p.bytes.length rest (by
    rw [hcut, length_append]
    omega)
  refine ⟨rest', ?_⟩
  rw [CodeMoniker.portablePathBuf, FsPath.toStringLossy, Utf8.fromUtf8Lossy]
  nth_rewrite 2 [hcut]
  rw [hrest', hsep, append_assoc, singleton_append]

/-- Paths that start with different labels are different. -/
theorem components_ne {p p' : FsPath} (h : IsLabel label) (h' : IsLabel label')
    (hp : p.StartsAt label) (hp' : p'.StartsAt label') (hne : label ≠ label') :
    p.components ≠ p'.components := by
  obtain ⟨rest, hrest⟩ := hp
  obtain ⟨rest', hrest'⟩ := hp'
  intro heq
  have hhead := h.head_components rest
  rw [show (⟨Utf8.encode label ++ 0x2f :: rest⟩ : FsPath) = p from FsPath.ext hrest.symm, heq,
    show p' = ⟨Utf8.encode label' ++ 0x2f :: rest'⟩ from FsPath.ext hrest',
    h'.head_components rest'] at hhead
  exact hne (Utf8.encode_injective (Option.some.inj hhead).symm)

theorem foldl_pushPart_names (names : List Bytes) (out : List Component) :
    (names.map normal).foldl pushPart out = out ++ names.map .normal := by
  induction names generalizing out with
  | nil => simp
  | cons name names ih =>
    rw [map_cons, foldl_cons, ih, pushPart, append_assoc, singleton_append]

theorem FsPath.isAbsolute_iff : p.isAbsolute = true ↔ p.components.head? = some .rootDir := by
  have hpiece : ∀ pieces : List Bytes,
      (pieces.map ofPiece).head? ≠ some .rootDir := fun pieces h => by
    rw [head?_map, Option.map_eq_some_iff] at h
    obtain ⟨piece, -, hpiece⟩ := h
    unfold ofPiece at hpiece
    split_ifs at hpiece
  simp only [components]
  split_ifs with habs hdot
  · simp [habs]
  · simp [habs]
  · exact iff_of_false habs (hpiece _)

theorem FsPath.isAbsolute_join {p q : FsPath} (hp : p.isAbsolute = false)
    (hq : q.isAbsolute = false) : (p.join q).isAbsolute = false := by
  rw [isAbsolute, beq_eq_false_iff_ne] at hp hq ⊢
  unfold join isAbsolute
  rw [if_neg (by simpa using hq)]
  cases hbytes : p.bytes with
  | nil => simpa using hq
  | cons b bytes =>
    rw [hbytes] at hp
    split_ifs <;> simpa using hp

theorem FsPath.isAbsolute_names {names : List Bytes} (h : ∀ name ∈ names, 0x2f ∉ name) :
    (ofComponents (names.map .normal)).isAbsolute = false := by
  suffices hfold : ∀ p : FsPath, p.isAbsolute = false →
      ((names.map normal).foldl push p).isAbsolute = false from hfold ⟨[]⟩ rfl
  induction names with
  | nil => exact fun _ hp => hp
  | cons name names ih =>
    refine fun p hp => ih (fun n hn => h n (mem_cons_of_mem _ hn)) _ (isAbsolute_join hp ?_)
    exact beq_eq_false_iff_ne.mpr fun hhead =>
      h name mem_cons_self (mem_of_mem_head? hhead)

/-- A file under a root is at names below it. -/
theorem FsPath.Under.relIn {root path : FsPath} (h : root.Under path) (currentDir : Option FsPath) :
    ∃ names : List Bytes, relIn currentDir root path = names.map .normal ∧
      ∀ name ∈ names, 0x2f ∉ name := by
  obtain ⟨names, hnames⟩ := h
  refine ⟨names, ?_, fun name hname => slash_notMem_of_mem_components (p := path) ?_⟩
  · have habs : path.isAbsolute = root.isAbsolute := by
      rw [Bool.eq_iff_iff, isAbsolute_iff, isAbsolute_iff, hnames, head?_append]
      cases root.components.head? <;> cases names <;> simp
    have hparts : (normalizeAbsolute currentDir path).getD path.components =
        (normalizeAbsolute currentDir root).getD root.components ++ names.map .normal := by
      unfold normalizeAbsolute
      rw [habs, hnames]
      cases root.isAbsolute <;> cases currentDir <;>
        simp [foldl_append, foldl_pushPart_names]
    rw [CodeMoniker.relIn, hparts, dropPrefix?_append_of_beq _ (beq_self_eq_true _),
      Option.getD_some]
  · rw [hnames]
    exact mem_append_right _ (mem_map_of_mem hname)

theorem FsPath.Under.startsAt {root path : FsPath} (h : root.Under path) (hlabel : IsLabel label)
    (currentDir : Option FsPath) : (multiRelPath currentDir label root path).StartsAt label := by
  obtain ⟨names, hrel, hnames⟩ := h.relIn currentDir
  refine StartsAt.portablePathBuf ⟨(ofComponents (names.map .normal)).bytes, ?_⟩
  have hlast : ¬(Utf8.encode label = [] ∨ (Utf8.encode label).getLast? = some 0x2f) := by
    rintro (hnil | hlast)
    · exact hlabel.ne_nil (Utf8.encode_injective (hnil.trans Utf8.encode_nil.symm))
    · exact hlabel.noSlash ((Utf8.ascii_mem_encode (a := '/') (by decide)).mp
        (mem_of_getLast? hlast))
  rw [hrel, join, if_neg (by simp [isAbsolute_names hnames]), if_neg hlast]

/-- Files under different roots have different paths, whatever the roots are. -/
def IdentitiesApart (labels : List (List Char)) : Prop :=
  ∀ (i j : ℕ) (label label' : List Char), labels[i]? = some label → labels[j]? = some label' →
    i ≠ j → ∀ (currentDir : Option FsPath) (root root' path path' : FsPath), root.Under path →
      root'.Under path' →
      (multiRelPath currentDir label root path).components ≠
        (multiRelPath currentDir label' root' path').components ∧
      (multiAnchor currentDir label root path).components ≠
        (multiAnchor currentDir label' root' path').components

/-- The labels of the roots are names and tell the files of the roots apart, if and only if no
numbered label is the base name of another root. -/
theorem labels_apart_iff (paths : List FsPath) :
    ((uniqueLabels paths).Nodup ∧ [] ∉ uniqueLabels paths ∧
      IdentitiesApart (uniqueLabels paths)) ↔ ¬NumberTaken (baseLabels paths) := by
  rw [← nodup_labelsFrom]
  refine ⟨fun h => h.1, fun hnodup => ⟨hnodup, fun hnil => (isLabel_of_mem hnil).ne_nil rfl, ?_⟩⟩
  intro i j label label' hi hj hij currentDir root root' path path' hunder hunder'
  have hlabel := isLabel_of_mem (mem_of_getElem? hi)
  have hlabel' := isLabel_of_mem (mem_of_getElem? hj)
  have hne : label ≠ label' := fun heq =>
    hij ((getElem?_inj (List.getElem?_eq_some_iff.mp hi).1 hnodup).mp (hi.trans (heq ▸ hj).symm))
  have hstarts := hunder.startsAt hlabel currentDir
  have hstarts' := hunder'.startsAt hlabel' currentDir
  exact ⟨components_ne hlabel hlabel' hstarts hstarts' hne,
    components_ne hlabel hlabel' hstarts.portablePathBuf hstarts'.portablePathBuf hne⟩

def rootAt (path : String) : FsPath := ⟨byteString path⟩

/-- Two roots `a` and one root `a-2` : the second and the third label are one, and so are the paths
of the two files named `m` below them. -/
theorem labels_taken : uniqueLabels [rootAt "/x/a", rootAt "/y/a", rootAt "/z/a-2"] =
        [['a'], ['a', '-', '2'], ['a', '-', '2']] ∧
      multiRelPath none ['a', '-', '2'] (rootAt "/y/a") (rootAt "/y/a/m") =
        multiRelPath none ['a', '-', '2'] (rootAt "/z/a-2") (rootAt "/z/a-2/m") := by
  decide

end CodeMoniker
