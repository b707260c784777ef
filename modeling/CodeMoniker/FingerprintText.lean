import CodeMoniker.Fingerprints
import CodeMoniker.TextViews

/-!
# The text of a fingerprint

What a fingerprint hashes is a view of the text of a definition : the bytes of the nested spans
and the white space are blank, and the name is a zero byte (`maskedView`). The source computes it
in one pass over sorted holes (`maskedBytes_eq_collapse`). If the name is an identifier, it is
replaced in the view as a whole piece (`maskedViewFrom_eq_replaceName`). Then the layout of the
text and its nested definitions are not seen, nor is a new name (`fingerprint_spec`). Other names
may be cut by a nested span or by white space (`fingerprint_of_other_names`).
-/

namespace CodeMoniker

open List ByteCodec TextViews

/-! ## The view -/

/-- The position is in one of the holes. -/
def hiddenBy (holes : List (ℕ × ℕ)) (i : ℕ) : Bool := holes.any fun hole => hole.1 ≤ i && i < hole.2

section View

variable (bytes name : Bytes) (hidden : ℕ → Bool)

/-- The name stands at `i` as a whole identifier, and no byte of it is hidden. -/
def occursOutside (i : ℕ) : Bool :=
  matchesIdentifierAt bytes i name && (List.range name.length).all fun j => !hidden (i + j)

/-- The view from `cursor` on. `skip` bytes of a name are passed over first. -/
def maskedViewFrom : Bytes → ℕ → ℕ → View UInt8
  | [], _, _ => []
  | _ :: rest, cursor, skip + 1 => maskedViewFrom rest (cursor + 1) skip
  | byte :: rest, cursor, 0 =>
    if hidden cursor then none :: maskedViewFrom rest (cursor + 1) 0
    else if occursOutside bytes name hidden cursor then
      some 0 :: maskedViewFrom rest (cursor + 1) (name.length - 1)
    else (if isBlank byte then none else some byte) :: maskedViewFrom rest (cursor + 1) 0

/-- Nested spans and white space are blank, and the name is a zero byte. -/
def maskedView : View UInt8 := maskedViewFrom bytes name hidden bytes 0 0

end View

/-! ## One pass over the holes -/

theorem hiddenBy_dropWhile {holes : List (ℕ × ℕ)} {cursor i : ℕ} (h : cursor ≤ i) :
    hiddenBy (holes.dropWhile fun hole => hole.2 ≤ cursor) i = hiddenBy holes i := by
  induction holes with
  | nil => rfl
  | cons hole holes ih =>
    rw [dropWhile_cons]
    split_ifs with hover
    · have hpast : ¬i < hole.2 := by
        rw [decide_eq_true_eq] at hover
        omega
      rw [ih, hiddenBy, hiddenBy, any_cons, decide_eq_false hpast, Bool.and_false, Bool.false_or]
    · rfl

theorem hiddenBy_cons_of_mem {hole : ℕ × ℕ} (holes : List (ℕ × ℕ)) {i : ℕ} (hle : hole.1 ≤ i)
    (hlt : i < hole.2) : hiddenBy (hole :: holes) i = true := by
  rw [hiddenBy, any_cons, decide_eq_true hle, decide_eq_true hlt, Bool.and_self, Bool.true_or]

theorem hiddenBy_cons_of_past {hole : ℕ × ℕ} (holes : List (ℕ × ℕ)) {i : ℕ} (h : hole.2 ≤ i) :
    hiddenBy (hole :: holes) i = hiddenBy holes i := by
  rw [hiddenBy, any_cons, decide_eq_false (Nat.not_lt.mpr h), Bool.and_false, Bool.false_or,
    hiddenBy]

/-- Nothing is hidden before the first of the holes. -/
theorem hiddenBy_cons_of_before {hole : ℕ × ℕ} {holes : List (ℕ × ℕ)}
    (hsorted : (hole :: holes).Pairwise (·.1 ≤ ·.1)) {i : ℕ} (h : i < hole.1) :
    hiddenBy (hole :: holes) i = false := by
  rw [hiddenBy, any_eq_false]
  intro other hother
  have hlater : hole.1 ≤ other.1 := by
    rcases mem_cons.mp hother with rfl | hother
    · exact le_rfl
    · exact (pairwise_cons.mp hsorted).1 other hother
  simp only [Bool.and_eq_true, decide_eq_true_eq]
  omega

/-- No name that is not hidden itself goes on below a hole. -/
def SparesNames (bytes name : Bytes) (hidden : ℕ → Bool) : Prop :=
  ∀ i, matchesIdentifierAt bytes i name = true → hidden i = false →
    ∀ j < name.length, hidden (i + j) = false

theorem SparesNames.occursOutside_eq {bytes name : Bytes} {hidden : ℕ → Bool}
    (h : SparesNames bytes name hidden) {i : ℕ} (hi : hidden i = false) :
    occursOutside bytes name hidden i = matchesIdentifierAt bytes i name := by
  unfold occursOutside
  cases hmatch : matchesIdentifierAt bytes i name with
  | false => rfl
  | true =>
    rw [Bool.true_and, all_eq_true]
    intro j hj
    rw [h i hmatch hi j (mem_range.mp hj)]
    rfl

/-- A visible byte is a part of the name, white space or written. -/
theorem visible_eq_collapse {bytes name rest : Bytes} {hidden : ℕ → Bool}
    (hspares : SparesNames bytes name hidden) {cursor : ℕ} {left : List (ℕ × ℕ)}
    (hrest : ∀ skip pending emitted,
      maskedBytes bytes name rest (cursor + 1) skip left pending emitted =
        collapse 0x20 pending emitted (maskedViewFrom bytes name hidden rest (cursor + 1) skip))
    (hcursor : hidden cursor = false) (byte : UInt8) (pending emitted : Bool) :
    (if matchesIdentifierAt bytes cursor name then (if pending then [0x20] else []) ++ 0 ::
        maskedBytes bytes name rest (cursor + 1) (name.length - 1) left false true
    else if isBlank byte then maskedBytes bytes name rest (cursor + 1) 0 left emitted emitted
    else (if pending then [0x20] else []) ++ byte ::
      maskedBytes bytes name rest (cursor + 1) 0 left false true) =
    collapse 0x20 pending emitted (maskedViewFrom bytes name hidden (byte :: rest) cursor 0) := by
  rw [maskedViewFrom, hcursor, if_neg Bool.false_ne_true, hspares.occursOutside_eq hcursor]
  by_cases hname : matchesIdentifierAt bytes cursor name = true
  · rw [if_pos hname, if_pos hname, collapse, hrest]
  · rw [if_neg hname, if_neg hname]
    by_cases hblank : isBlank byte = true
    · rw [if_pos hblank, if_pos hblank, collapse, hrest]
    · rw [if_neg hblank, if_neg hblank, collapse, hrest]

/-- The pass from `cursor` on, when the bytes that are passed over belong to a name, and when they
belong to a hole. -/
theorem maskedBytes_from {bytes name : Bytes} {hidden : ℕ → Bool}
    (hspares : SparesNames bytes name hidden) : ∀ (rest : Bytes) (cursor skip : ℕ)
      (holes : List (ℕ × ℕ)) (pending emitted : Bool), holes.Pairwise (·.1 ≤ ·.1) →
      (∀ i, cursor + skip ≤ i → hidden i = hiddenBy holes i) →
      maskedBytes bytes name rest cursor skip holes pending emitted =
        collapse 0x20 pending emitted (maskedViewFrom bytes name hidden rest cursor skip) ∧
      ((∀ i, cursor ≤ i → i < cursor + skip → hidden i = true) →
        maskedBytes bytes name rest cursor skip holes emitted emitted =
          collapse 0x20 emitted emitted (maskedViewFrom bytes name hidden rest cursor 0))
  | [], cursor, skip, holes, pending, emitted, _, _ => by
    simp [maskedBytes, maskedViewFrom, collapse]
  | byte :: rest, cursor, skip + 1, holes, pending, emitted, hsorted, hholes => by
    have hholes' : ∀ i, cursor + 1 + skip ≤ i → hidden i = hiddenBy holes i :=
      fun i hi => hholes i (by omega)
    refine ⟨(maskedBytes_from hspares rest (cursor + 1) skip holes pending emitted hsorted
      hholes').1, fun hhole => ?_⟩
    rw [maskedBytes, maskedViewFrom, if_pos (hhole cursor le_rfl (by omega)), collapse]
    exact (maskedBytes_from hspares rest (cursor + 1) skip holes pending emitted hsorted
      hholes').2 fun i hi hi' => hhole i (by omega) (by omega)
  | byte :: rest, cursor, 0, holes, pending, emitted, hsorted, hholes => by
    have hnow : ∀ pending, maskedBytes bytes name (byte :: rest) cursor 0 holes pending emitted =
        collapse 0x20 pending emitted
          (maskedViewFrom bytes name hidden (byte :: rest) cursor 0) := by
      intro pending
      have hleft : ∀ i, cursor ≤ i →
          hidden i = hiddenBy (holes.dropWhile fun hole => hole.2 ≤ cursor) i :=
        fun i hi => (hholes i hi).trans (hiddenBy_dropWhile hi).symm
      have hleftSorted : (holes.dropWhile fun hole => hole.2 ≤ cursor).Pairwise (·.1 ≤ ·.1) :=
        hsorted.sublist (dropWhile_sublist _)
      have hshown : ∀ left : List (ℕ × ℕ), left.Pairwise (·.1 ≤ ·.1) →
          (∀ i, cursor ≤ i → hidden i = hiddenBy left i) → ∀ skip pending emitted,
            maskedBytes bytes name rest (cursor + 1) skip left pending emitted =
              collapse 0x20 pending emitted
                (maskedViewFrom bytes name hidden rest (cursor + 1) skip) :=
        fun left hsorted' hleft' skip pending emitted =>
          (maskedBytes_from hspares rest (cursor + 1) skip left pending emitted hsorted'
            fun i hi => hleft' i (by omega)).1
      rw [maskedBytes]
      cases hdrop : holes.dropWhile fun hole => hole.2 ≤ cursor with
      | nil =>
        rw [hdrop] at hleft hleftSorted
        exact visible_eq_collapse hspares (hshown [] hleftSorted hleft) (hleft cursor le_rfl) byte
          pending emitted
      | cons hole more =>
        rw [hdrop] at hleft hleftSorted
        have hopen : ¬hole.2 ≤ cursor := by
          have hhead := head?_dropWhile_not (fun hole : ℕ × ℕ => decide (hole.2 ≤ cursor)) holes
          rw [hdrop] at hhead
          simpa using hhead
        dsimp only
        by_cases hin : hole.1 ≤ cursor
        · rw [if_pos hin]
          have hhidden : ∀ i, cursor ≤ i → i < hole.2 → hidden i = true := fun i hi hi' =>
            (hleft i hi).trans (hiddenBy_cons_of_mem more (hin.trans hi) hi')
          rw [maskedViewFrom, if_pos (hhidden cursor le_rfl (by omega)), collapse]
          refine (maskedBytes_from hspares rest (cursor + 1) (hole.2 - cursor - 1) more pending
            emitted hleftSorted.of_cons fun i hi => ?_).2 fun i hi hi' =>
              hhidden i (by omega) (by omega)
          rw [hleft i (by omega), hiddenBy_cons_of_past more (by omega)]
        · rw [if_neg hin]
          refine visible_eq_collapse hspares (hshown (hole :: more) hleftSorted hleft) ?_ byte
            pending emitted
          rw [hleft cursor le_rfl, hiddenBy_cons_of_before hleftSorted (Nat.not_le.mp hin)]
    exact ⟨hnow pending, fun _ => hnow emitted⟩

/-- What the source writes is the view, with white space collapsed and trimmed. -/
theorem maskedBytes_eq_collapse {bytes name : Bytes} {holes : List (ℕ × ℕ)}
    (hsorted : holes.Pairwise (·.1 ≤ ·.1)) (hspares : SparesNames bytes name (hiddenBy holes)) :
    maskedBytes bytes name bytes 0 0 holes false false =
      [0x20].intercalate (words (maskedView bytes name (hiddenBy holes))) := by
  rw [(maskedBytes_from hspares bytes 0 0 holes false false hsorted fun _ _ => rfl).1]
  exact collapse_eq _

/-! ## Names that are identifiers -/

/-- The view from `cursor` on with the name as it is. -/
def plainViewFrom (hidden : ℕ → Bool) : Bytes → ℕ → View UInt8
  | [], _ => []
  | byte :: rest, cursor =>
    (if hidden cursor || isBlank byte then none else some byte) :: plainViewFrom hidden rest (cursor + 1)

theorem takeWhile_eq_iff {α : Type} {p : α → Bool} {l m : List α} (hm : ∀ a ∈ m, p a = true) :
    l.takeWhile p = m ↔ m <+: l ∧ (l[m.length]?).any p = false := by
  constructor
  · rintro rfl
    refine ⟨List.takeWhile_prefix _, ?_⟩
    have hnext : (l.takeWhile p ++ l.dropWhile p)[(l.takeWhile p).length]? =
        (l.dropWhile p).head? := by
      rw [getElem?_append_right le_rfl, Nat.sub_self, head?_eq_getElem?]
    rw [takeWhile_append_dropWhile] at hnext
    rw [hnext]
    have hstop := head?_dropWhile_not p l
    cases hhead : (l.dropWhile p).head? with
    | none => rfl
    | some a =>
      rw [hhead] at hstop
      simpa using hstop
  · rintro ⟨⟨t, rfl⟩, hnext⟩
    rw [takeWhile_append_of_pos hm]
    rw [getElem?_append_right le_rfl, Nat.sub_self] at hnext
    cases t with
    | nil => simp
    | cons a t =>
      have ha : p a = false := by simpa using hnext
      rw [takeWhile_cons, ha]
      simp

def byteBefore (bytes : Bytes) (i : ℕ) : Option UInt8 := if i = 0 then none else bytes[i - 1]?

/-- An identifier stands where a run of identifier bytes starts and is equal to it. -/
theorem matchesIdentifierAt_iff {bytes name : Bytes} (hname : IsName isIdentifierByte name) {i : ℕ} :
    matchesIdentifierAt bytes i name = true ↔ (byteBefore bytes i).any isIdentifierByte = false ∧
        (bytes.drop i).takeWhile isIdentifierByte = name := by
  rw [takeWhile_eq_iff hname.2, matchesIdentifierAt, getElem?_drop, byteBefore]
  simp only [Bool.and_eq_true, decide_eq_true_eq, List.isPrefixOf_iff_prefix, Bool.not_eq_true']
  have hne := hname.1
  tauto

/-- No hole ends between two bytes of one identifier. -/
def SparesIdentifiers (bytes : Bytes) (hidden : ℕ → Bool) : Prop :=
  ∀ i, (bytes[i]?).any isIdentifierByte = true → (bytes[i + 1]?).any isIdentifierByte = true →
    hidden i = hidden (i + 1)

theorem any_of_matchesIdentifierAt {bytes name : Bytes}
    (hname : ∀ b ∈ name, isIdentifierByte b = true) {i : ℕ}
    (h : matchesIdentifierAt bytes i name = true) :
    ∀ k < name.length, (bytes[i + k]?).any isIdentifierByte = true := by
  intro k hk
  have hpre : name <+: bytes.drop i := by
    simp only [matchesIdentifierAt, Bool.and_eq_true, List.isPrefixOf_iff_prefix] at h
    exact h.1.1.2
  rw [← getElem?_drop, prefix_iff_getElem?.mp hpre k hk]
  exact hname _ (getElem_mem hk)

theorem SparesIdentifiers.sparesNames {bytes name : Bytes} {hidden : ℕ → Bool}
    (h : SparesIdentifiers bytes hidden) (hname : ∀ b ∈ name, isIdentifierByte b = true) :
    SparesNames bytes name hidden := by
  intro i hmatch hi j hj
  have hbyte := any_of_matchesIdentifierAt hname hmatch
  induction j with
  | zero => exact hi
  | succ j ih =>
    rw [← Nat.add_assoc, ← h (i + j) (hbyte j (by omega)) (hbyte (j + 1) hj)]
    exact ih (by omega)

section Identifiers

variable {bytes name : Bytes} {hidden : ℕ → Bool}

theorem maskedViewFrom_skip : ∀ (rest : Bytes) (cursor skip : ℕ),
    maskedViewFrom bytes name hidden rest cursor skip =
      maskedViewFrom bytes name hidden (rest.drop skip) (cursor + skip) 0
  | _, _, 0 => rfl
  | [], _, _ + 1 => rfl
  | _ :: rest, cursor, skip + 1 => by
    rw [maskedViewFrom, maskedViewFrom_skip rest (cursor + 1) skip, drop_succ_cons]
    congr 1
    omega

/-- Visible bytes of an identifier that is not the name. -/
theorem maskedViewFrom_run : ∀ (w rest : Bytes) (cursor : ℕ), (∀ b ∈ w, isBlank b = false) →
    (∀ j < w.length, hidden (cursor + j) = false ∧
      matchesIdentifierAt bytes (cursor + j) name = false) →
    maskedViewFrom bytes name hidden (w ++ rest) cursor 0 =
      w.map some ++ maskedViewFrom bytes name hidden rest (cursor + w.length) 0
  | [], _, _, _, _ => rfl
  | b :: w, rest, cursor, hblank, hw => by
    obtain ⟨hvisible, hmatch⟩ := hw 0 (by simp)
    rw [Nat.add_zero] at hvisible hmatch
    have hoccurs : occursOutside bytes name hidden cursor = false := by
      rw [occursOutside, hmatch, Bool.false_and]
    rw [cons_append, maskedViewFrom, hvisible, hoccurs, hblank b mem_cons_self,
      maskedViewFrom_run w rest (cursor + 1) (fun b hb => hblank b (mem_cons_of_mem _ hb))
        fun j hj => by
          have hnext := hw (j + 1) (by simpa using hj)
          rwa [show cursor + (j + 1) = cursor + 1 + j by omega] at hnext]
    simp only [Bool.false_eq_true, if_false, map_cons, cons_append, length_cons]
    rw [show cursor + 1 + w.length = cursor + (w.length + 1) by omega]

theorem plainViewFrom_run : ∀ (w rest : Bytes) (cursor : ℕ), (∀ b ∈ w, isBlank b = false) →
    (∀ j < w.length, hidden (cursor + j) = false) → plainViewFrom hidden (w ++ rest) cursor =
      w.map some ++ plainViewFrom hidden rest (cursor + w.length)
  | [], _, _, _, _ => rfl
  | b :: w, rest, cursor, hblank, hw => by
    have hvisible := hw 0 (by simp)
    rw [Nat.add_zero] at hvisible
    rw [cons_append, plainViewFrom, hvisible, hblank b mem_cons_self,
      plainViewFrom_run w rest (cursor + 1) (fun b hb => hblank b (mem_cons_of_mem _ hb))
        fun j hj => by
          have hnext := hw (j + 1) (by simpa using hj)
          rwa [show cursor + (j + 1) = cursor + 1 + j by omega] at hnext]
    simp only [Bool.or_self, Bool.false_eq_true, if_false, map_cons, cons_append, length_cons]
    rw [show cursor + 1 + w.length = cursor + (w.length + 1) by omega]

theorem head?_plainViewFrom {rest : Bytes} {cursor : ℕ}
    (h : rest.head?.any isIdentifierByte = false) :
    ∀ y ∈ (plainViewFrom hidden rest cursor).head?, y.any isIdentifierByte = false := by
  cases rest with
  | nil => exact fun y hy => nomatch hy
  | cons b rest =>
    intro y hy
    obtain rfl := Option.some.inj hy
    split_ifs
    · rfl
    · exact h

theorem isBlank_of_isIdentifierByte {b : UInt8} (h : isIdentifierByte b = true) :
    isBlank b = false := by
  rw [isBlank, decide_eq_false_iff_not]
  intro hmem
  simp only [mem_cons, not_mem_nil, or_false] at hmem
  rcases hmem with rfl | rfl | rfl | rfl <;> exact absurd h (by decide)

/-- The visible part of an identifier reaches to its end. -/
theorem SparesIdentifiers.hidden_run (h : SparesIdentifiers bytes hidden) {cursor : ℕ} {w rest : Bytes}
    (hrest : bytes.drop cursor = w ++ rest) (hw : ∀ b ∈ w, isIdentifierByte b = true) :
    ∀ {j : ℕ}, j < w.length → hidden (cursor + j) = hidden cursor
  | 0, _ => rfl
  | j + 1, hj => by
    have hbyte : ∀ k < w.length, (bytes[cursor + k]?).any isIdentifierByte = true := by
      intro k hk
      rw [← getElem?_drop, hrest, getElem?_append_left hk, getElem?_eq_getElem hk]
      exact hw _ (getElem_mem hk)
    rw [← h.hidden_run hrest hw (Nat.lt_of_succ_lt hj)]
    exact (h (cursor + j) (hbyte j (by omega)) (hbyte (j + 1) hj)).symm

/-- An identifier that is visible, from its first byte on. -/
theorem maskedViewFrom_identifier (hname : IsName isIdentifierByte name)
    (hspares : SparesIdentifiers bytes hidden) {w later : Bytes} {cursor : ℕ}
    (hrun : bytes.drop cursor = w ++ later) (hw : IsName isIdentifierByte w)
    (hend : later.head?.any isIdentifierByte = false)
    (hprev : (byteBefore bytes cursor).any isIdentifierByte = false)
    (hhidden : hidden cursor = false) : maskedViewFrom bytes name hidden (w ++ later) cursor 0 =
      (if w = name then [some 0] else w.map some) ++
        maskedViewFrom bytes name hidden later (cursor + w.length) 0 := by
  have hpos : 0 < w.length := length_pos_iff.mpr hw.1
  have htake : (bytes.drop cursor).takeWhile isIdentifierByte = w := by
    rw [takeWhile_eq_iff hw.2, hrun, getElem?_append_right le_rfl, Nat.sub_self,
      ← head?_eq_getElem?]
    exact ⟨prefix_append _ _, hend⟩
  by_cases hsame : w = name
  · subst hsame
    have hmatch : matchesIdentifierAt bytes cursor w = true :=
      (matchesIdentifierAt_iff hw).mpr ⟨hprev, htake⟩
    have hoccurs : occursOutside bytes w hidden cursor = true := by
      rw [(hspares.sparesNames hw.2).occursOutside_eq hhidden, hmatch]
    obtain ⟨b, more, rfl⟩ := exists_cons_of_ne_nil hw.1
    rw [cons_append, maskedViewFrom, hhidden, hoccurs, if_neg Bool.false_ne_true, if_pos rfl,
      maskedViewFrom_skip, if_pos rfl, length_cons, Nat.add_sub_cancel, drop_left,
      show cursor + 1 + more.length = cursor + (more.length + 1) by omega]
    rfl
  · rw [if_neg hsame]
    refine maskedViewFrom_run w later cursor
      (fun b hb => isBlank_of_isIdentifierByte (hw.2 b hb)) fun j hj =>
        ⟨(hspares.hidden_run hrun hw.2 hj).trans hhidden, Bool.eq_false_iff.mpr fun h => ?_⟩
    obtain ⟨hbefore, hstands⟩ := (matchesIdentifierAt_iff hname).mp h
    rcases j.eq_zero_or_pos with rfl | hj'
    · exact hsame (htake.symm.trans hstands)
    · -- The byte before belongs to the same identifier.
      have hbyte : byteBefore bytes (cursor + j) = some w[j - 1] := by
        rw [byteBefore, if_neg (by omega), show cursor + j - 1 = cursor + (j - 1) by omega,
          ← getElem?_drop, hrun, getElem?_append_left (by omega),
          getElem?_eq_getElem]
      rw [hbyte, Option.any_some, hw.2 _ (getElem_mem _)] at hbefore
      exact nomatch hbefore

/-- Text that starts with an identifier byte starts with an identifier, up to where it ends. -/
theorem exists_identifier_append {b : UInt8} (hb : isIdentifierByte b = true) (more : Bytes) :
    ∃ w later, b :: more = w ++ later ∧ IsName isIdentifierByte w ∧
      later.head?.any isIdentifierByte = false := by
  refine ⟨_, _, takeWhile_append_dropWhile.symm, ⟨?_, fun c hc =>
    all_eq_true.mp all_takeWhile c hc⟩, ?_⟩
  · rw [takeWhile_cons, if_pos hb]
    exact cons_ne_nil _ _
  · have hstop := head?_dropWhile_not isIdentifierByte (b :: more)
    cases hhead : ((b :: more).dropWhile isIdentifierByte).head? with
    | none => rfl
    | some c =>
      rw [hhead] at hstop
      simpa using hstop

/-- For a name that is an identifier, the view is the plain one with the name replaced. -/
theorem maskedViewFrom_eq_replaceName (hname : IsName isIdentifierByte name)
    (hspares : SparesIdentifiers bytes hidden) (rest : Bytes) (cursor : ℕ)
    (hrest : bytes.drop cursor = rest)
    (hstart : (byteBefore bytes cursor).any isIdentifierByte = true →
      rest.head?.any isIdentifierByte = true → hidden cursor = true) :
    maskedViewFrom bytes name hidden rest cursor 0 =
      replaceName isIdentifierByte name [some 0] (plainViewFrom hidden rest cursor) := by
  induction hlen : rest.length using Nat.strong_induction_on generalizing rest cursor with
  | _ n ih =>
    cases rest with
    | nil => rfl
    | cons b more =>
      have hb : bytes[cursor]? = some b := by
        rw [← Nat.add_zero cursor, ← getElem?_drop, hrest]
        rfl
      have hmore : bytes.drop (cursor + 1) = more := by
        rw [← drop_drop, hrest]
        rfl
      have hnext : (isIdentifierByte b = true → hidden cursor = true) →
          maskedViewFrom bytes name hidden more (cursor + 1) 0 =
            replaceName isIdentifierByte name [some 0] (plainViewFrom hidden more (cursor + 1)) := by
        intro hpart
        refine ih more.length (by rw [← hlen, length_cons]; omega) more (cursor + 1) hmore
          (fun hprev hhead => ?_) rfl
        rw [byteBefore, if_neg (by omega), Nat.add_sub_cancel, hb, Option.any_some] at hprev
        have hsame := hspares cursor (by rw [hb]; exact hprev) (by
          rw [← Nat.add_zero (cursor + 1), ← getElem?_drop, hmore, ← head?_eq_getElem?]
          exact hhead)
        rw [← hsame, hpart hprev]
      by_cases hhidden : hidden cursor = true
      · rw [maskedViewFrom, plainViewFrom, hhidden, if_pos rfl, Bool.true_or, if_pos rfl,
          replaceName_cons hname rfl, hnext fun _ => hhidden]
      · rw [Bool.not_eq_true] at hhidden
        by_cases hpart : isIdentifierByte b = true
        · obtain ⟨w, later, hcut, hwname, hend⟩ := exists_identifier_append hpart more
          have hrun : bytes.drop cursor = w ++ later := hrest.trans hcut
          have hpos : 0 < w.length := length_pos_iff.mpr hwname.1
          have hprev : (byteBefore bytes cursor).any isIdentifierByte = false :=
            Bool.eq_false_iff.mpr fun h => absurd ((hstart h hpart).symm.trans hhidden) (by decide)
          rw [hcut, maskedViewFrom_identifier hname hspares hrun hwname hend hprev hhidden,
            plainViewFrom_run w later cursor
              (fun c hc => isBlank_of_isIdentifierByte (hwname.2 c hc))
              (fun j hj => (hspares.hidden_run hrun hwname.2 hj).trans hhidden),
            replaceName_append_name hwname (head?_plainViewFrom hend)]
          rw [ih later.length (by rw [← hlen, hcut, length_append]; omega) later
            (cursor + w.length) (by rw [← drop_drop, hrun, drop_left])
            (fun _ h => absurd (hend.symm.trans h) Bool.false_ne_true) rfl]
        · rw [Bool.not_eq_true] at hpart
          have hmatch : matchesIdentifierAt bytes cursor name = false := by
            refine Bool.eq_false_iff.mpr fun h => hname.1 ?_
            rw [← ((matchesIdentifierAt_iff hname).mp h).2, hrest, takeWhile_cons, hpart]
            rfl
          have hoccurs : occursOutside bytes name hidden cursor = false := by
            rw [occursOutside, hmatch, Bool.false_and]
          rw [maskedViewFrom, plainViewFrom, hhidden, hoccurs, Bool.false_or,
            if_neg Bool.false_ne_true, if_neg Bool.false_ne_true, replaceName_cons hname,
            hnext fun h => absurd (hpart.symm.trans h) Bool.false_ne_true]
          split_ifs
          · rfl
          · exact hpart

/-- Nothing is replaced for an empty name. -/
theorem maskedViewFrom_empty : ∀ (rest : Bytes) (cursor : ℕ),
    maskedViewFrom bytes [] hidden rest cursor 0 = plainViewFrom hidden rest cursor
  | [], _ => rfl
  | b :: rest, cursor => by
    have hoccurs : occursOutside bytes [] hidden cursor = false := by
      simp [occursOutside, matchesIdentifierAt]
    rw [maskedViewFrom, plainViewFrom, hoccurs, maskedViewFrom_empty rest (cursor + 1)]
    cases hidden cursor <;> simp

end Identifiers

/-! ## Definitions with nested definitions -/

/-- The span of a definition in a source, and the spans that may be nested in it. -/
structure NestedText where
  source : Bytes
  span : Position
  nested : List Position
  ordered : ∀ inner ∈ nested, inner.1 ≤ inner.2

namespace NestedText

variable (t : NestedText)

def bytes : Bytes := spanBytes t.source t.span

/-- The spans inside the definition, other than its own. -/
def inner : List Position :=
  t.nested.filter fun inner => inner ≠ t.span ∧ t.span.1 ≤ inner.1 ∧ inner.2 ≤ t.span.2

/-- The byte `i` of the definition belongs to a nested one. -/
def isNested (i : ℕ) : Bool :=
  i < t.bytes.length && t.inner.any fun inner =>
    inner.1.toNat ≤ t.span.1.toNat + i && t.span.1.toNat + i < inner.2.toNat

/-- The text with nested definitions and white space blank. -/
def view : View UInt8 := plainViewFrom t.isNested t.bytes 0

/-- The bytes that the text fingerprint hashes. -/
def stream (name : Bytes) : Bytes :=
  maskedBytes t.bytes name t.bytes 0 0 (relativeHoles t.span t.nested t.bytes.length) false false

def SparesIdentifier (stop : ℕ) : Prop :=
  ¬((byteBefore t.bytes stop).any isIdentifierByte = true ∧
    (t.bytes[stop]?).any isIdentifierByte = true)

def SparesName (name : Bytes) (stop : ℕ) : Prop :=
  ∀ i, matchesIdentifierAt t.bytes i name = true → ¬(i < stop ∧ stop < i + name.length)

/-- No nested span starts or ends inside an identifier. -/
def UncutIdentifiers : Prop := ∀ inner ∈ t.inner,
  t.SparesIdentifier (inner.1.toNat - t.span.1.toNat) ∧
    t.SparesIdentifier (inner.2.toNat - t.span.1.toNat)

/-- No nested span starts or ends inside the name. -/
def UncutName (name : Bytes) : Prop := ∀ inner ∈ t.inner,
  t.SparesName name (inner.1.toNat - t.span.1.toNat) ∧
    t.SparesName name (inner.2.toNat - t.span.1.toNat)

/-! ### Holes are nested spans -/

variable {t}

theorem mem_inner {inner : Position} (h : inner ∈ t.inner) :
    t.span.1.toNat ≤ inner.1.toNat ∧ inner.1.toNat ≤ inner.2.toNat := by
  obtain ⟨hmem, hin⟩ := mem_filter.mp h
  exact ⟨UInt32.le_iff_toNat_le.mp (of_decide_eq_true hin).2.1,
    UInt32.le_iff_toNat_le.mp (t.ordered inner hmem)⟩

theorem sorted_relativeHoles (span : Position) (nested : List Position) (len : ℕ) :
    (relativeHoles span nested len).Pairwise (·.1 ≤ ·.1) := by
  refine StableSort.sorted_stableSort.imp fun {a b} h => ?_
  rcases Prod.Lex.toLex_le_toLex.mp h with hlt | ⟨heq, -⟩
  · exact hlt.le
  · exact heq.le

theorem hiddenBy_relativeHoles (t : NestedText) :
    hiddenBy (relativeHoles t.span t.nested t.bytes.length) = t.isNested := by
  funext i
  have hany : ∀ p : ℕ × ℕ → Bool, (relativeHoles t.span t.nested t.bytes.length).any p =
      (t.inner.map fun inner => (min (inner.1 - t.span.1).toNat t.bytes.length,
        min (inner.2 - t.span.1).toNat t.bytes.length)).any p := by
    intro p
    exact (perm_insertionSort _ _).any_eq
  rw [hiddenBy, hany, isNested, any_map, Bool.eq_iff_iff, Bool.and_eq_true,
    any_eq_true, any_eq_true, decide_eq_true_eq]
  simp only [Function.comp_apply, Bool.and_eq_true, decide_eq_true_eq]
  have hoffset : ∀ inner ∈ t.inner, (inner.1 - t.span.1).toNat = inner.1.toNat - t.span.1.toNat ∧
      (inner.2 - t.span.1).toNat = inner.2.toNat - t.span.1.toNat := by
    intro inner hinner
    obtain ⟨hstart, horder⟩ := mem_inner hinner
    exact ⟨UInt32.toNat_sub_of_le _ _ (UInt32.le_iff_toNat_le.mpr hstart),
      UInt32.toNat_sub_of_le _ _ (UInt32.le_iff_toNat_le.mpr (hstart.trans horder))⟩
  constructor
  · rintro ⟨inner, hinner, hstart, hstop⟩
    obtain ⟨hfirst, horder⟩ := mem_inner hinner
    rw [(hoffset inner hinner).1] at hstart
    rw [(hoffset inner hinner).2] at hstop
    exact ⟨by omega, inner, hinner, by omega, by omega⟩
  · rintro ⟨hlen, inner, hinner, hstart, hstop⟩
    obtain ⟨hfirst, horder⟩ := mem_inner hinner
    refine ⟨inner, hinner, ?_, ?_⟩
    · rw [(hoffset inner hinner).1]
      omega
    · rw [(hoffset inner hinner).2]
      omega

theorem isNested_iff {i : ℕ} : t.isNested i = true ↔ i < t.bytes.length ∧ ∃ inner ∈ t.inner,
    inner.1.toNat ≤ t.span.1.toNat + i ∧ t.span.1.toNat + i < inner.2.toNat := by
  simp only [isNested, Bool.and_eq_true, decide_eq_true_eq, any_eq_true]

theorem UncutName.sparesNames {name : Bytes} (h : t.UncutName name) :
    SparesNames t.bytes name t.isNested := by
  intro i hmatch hi j hj
  refine Bool.eq_false_iff.mpr fun hnested => ?_
  obtain ⟨hlen, inner, hinner, hstart, hstop⟩ := isNested_iff.mp hnested
  obtain ⟨hfirst, horder⟩ := mem_inner hinner
  have hafter : ¬inner.1.toNat ≤ t.span.1.toNat + i := fun hle =>
    Bool.false_ne_true (hi.symm.trans (isNested_iff.mpr ⟨by omega, inner, hinner, hle, by omega⟩))
  exact (h inner hinner).1 i hmatch ⟨by omega, by omega⟩

theorem UncutIdentifiers.sparesIdentifiers (h : t.UncutIdentifiers) :
    SparesIdentifiers t.bytes t.isNested := by
  intro i hbyte hnext
  have hbefore : byteBefore t.bytes (i + 1) = t.bytes[i]? := by
    rw [byteBefore, if_neg (by omega), Nat.add_sub_cancel]
  have hlen : i + 1 < t.bytes.length := by
    by_contra hout
    rw [getElem?_eq_none (by omega)] at hnext
    exact nomatch hnext
  have hcut : ∀ stop, t.SparesIdentifier stop → stop ≠ i + 1 := by
    rintro stop hspares rfl
    exact hspares ⟨by rw [hbefore]; exact hbyte, hnext⟩
  rw [Bool.eq_iff_iff, isNested_iff, isNested_iff]
  constructor
  · rintro ⟨-, inner, hinner, hstart, hstop⟩
    have hne := hcut _ (h inner hinner).2
    exact ⟨hlen, inner, hinner, by omega, by omega⟩
  · rintro ⟨-, inner, hinner, hstart, hstop⟩
    obtain ⟨hfirst, -⟩ := mem_inner hinner
    have hne := hcut _ (h inner hinner).1
    exact ⟨by omega, inner, hinner, by omega, by omega⟩

/-! ### The bytes that are hashed -/

theorem stream_eq {name : Bytes} (h : t.UncutName name) : t.stream name =
    [0x20].intercalate (words (maskedView t.bytes name t.isNested)) := by
  rw [stream, maskedBytes_eq_collapse (sorted_relativeHoles _ _ _), hiddenBy_relativeHoles]
  rw [hiddenBy_relativeHoles]
  exact h.sparesNames

theorem stream_eq_replaceName {name : Bytes} (hname : ∀ b ∈ name, isIdentifierByte b = true)
    (h : t.UncutIdentifiers) : t.stream name =
      [0x20].intercalate (words (replaceName isIdentifierByte name [some 0] t.view)) := by
  have hspares := h.sparesIdentifiers
  have hview : maskedView t.bytes name t.isNested =
      replaceName isIdentifierByte name [some 0] t.view := by
    by_cases hempty : name = []
    · subst hempty
      rw [maskedView, maskedViewFrom_empty, replaceName_empty, view]
    · refine maskedViewFrom_eq_replaceName ⟨hempty, hname⟩ hspares t.bytes 0 rfl fun hbefore => ?_
      exact nomatch hbefore
  rw [stream, maskedBytes_eq_collapse (sorted_relativeHoles _ _ _), hiddenBy_relativeHoles, hview]
  rw [hiddenBy_relativeHoles]
  exact hspares.sparesNames hname

/-! ### White space and nested definitions are replaced -/

/-- The bytes from `start` on are white space or nested. -/
def IsGap (t : NestedText) (start : ℕ) (gap : Bytes) : Prop :=
  ∀ i (h : i < gap.length), t.isNested (start + i) = true ∨ isBlank gap[i] = true

/-- White space or nested definitions in one place are replaced by others. There may be none only
at the ends. -/
structure Relaid (t t' : NestedText) (before gap gap' after : Bytes) : Prop where
  bytes : t.bytes = before ++ gap ++ after
  bytes' : t'.bytes = before ++ gap' ++ after
  isGap : t.IsGap before.length gap
  isGap' : t'.IsGap before.length gap'
  nestedBefore : ∀ i < before.length, t'.isNested i = t.isNested i
  nestedAfter : ∀ i, t'.isNested (before.length + gap'.length + i) =
    t.isNested (before.length + gap.length + i)
  kept : (gap ≠ [] ∧ gap' ≠ []) ∨ before = [] ∨ after = []

/-- Some stretches of white space and nested definitions are replaced, one after another. -/
def SameLayout : NestedText → NestedText → Prop :=
  Relation.ReflTransGen fun t t' => ∃ before gap gap' after, Relaid t t' before gap gap' after

theorem plainViewFrom_append (hidden : ℕ → Bool) : ∀ (a b : Bytes) (cursor : ℕ),
    plainViewFrom hidden (a ++ b) cursor =
      plainViewFrom hidden a cursor ++ plainViewFrom hidden b (cursor + a.length)
  | [], _, _ => rfl
  | x :: a, b, cursor => by
    rw [cons_append, plainViewFrom, plainViewFrom_append hidden a b (cursor + 1), plainViewFrom,
      cons_append, length_cons, show cursor + 1 + a.length = cursor + (a.length + 1) by omega]

theorem plainViewFrom_congr {hidden hidden' : ℕ → Bool} : ∀ (bytes : Bytes) (cursor cursor' : ℕ),
    (∀ i < bytes.length, hidden' (cursor' + i) = hidden (cursor + i)) →
      plainViewFrom hidden' bytes cursor' = plainViewFrom hidden bytes cursor
  | [], _, _, _ => rfl
  | b :: bytes, cursor, cursor', h => by
    have hfirst := h 0 (by simp)
    rw [Nat.add_zero, Nat.add_zero] at hfirst
    rw [plainViewFrom, plainViewFrom, hfirst,
      plainViewFrom_congr bytes (cursor + 1) (cursor' + 1) fun i hi => by
        have hnext := h (i + 1) (by simpa using hi)
        rwa [show cursor' + (i + 1) = cursor' + 1 + i by omega,
          show cursor + (i + 1) = cursor + 1 + i by omega] at hnext]

theorem IsGap.view : ∀ {gap : Bytes} {start : ℕ}, t.IsGap start gap →
    plainViewFrom t.isNested gap start = replicate gap.length none
  | [], _, _ => rfl
  | b :: gap, start, h => by
    have hfirst : (t.isNested start || isBlank b) = true := by
      have h0 := h 0 (by simp)
      rwa [Nat.add_zero, getElem_cons_zero, ← Bool.or_eq_true] at h0
    have hrest : t.IsGap (start + 1) gap := fun i hi => by
      have hnext := h (i + 1) (by simpa using hi)
      rwa [show start + (i + 1) = start + 1 + i by omega, getElem_cons_succ] at hnext
    rw [plainViewFrom, hfirst, if_pos rfl, hrest.view, length_cons, replicate_succ]

theorem Relaid.reshapes {t' : NestedText} {before gap gap' after : Bytes}
    (h : Relaid t t' before gap gap' after) : Reshapes t.view t'.view := by
  have hview : t.view = plainViewFrom t.isNested before 0 ++ replicate gap.length none ++
      plainViewFrom t.isNested after (before.length + gap.length) := by
    rw [view, h.bytes, plainViewFrom_append, plainViewFrom_append, Nat.zero_add, h.isGap.view,
      Nat.zero_add, length_append]
  have hbefore : plainViewFrom t'.isNested before 0 = plainViewFrom t.isNested before 0 :=
    plainViewFrom_congr before 0 0 fun i hi => by
      rw [Nat.zero_add]
      exact h.nestedBefore i hi
  have hafter : plainViewFrom t'.isNested after (before.length + gap'.length) =
      plainViewFrom t.isNested after (before.length + gap.length) :=
    plainViewFrom_congr after _ _ fun i _ => h.nestedAfter i
  have hview' : t'.view = plainViewFrom t.isNested before 0 ++ replicate gap'.length none ++
      plainViewFrom t.isNested after (before.length + gap.length) := by
    rw [view, h.bytes', plainViewFrom_append, plainViewFrom_append, Nat.zero_add, h.isGap'.view,
      Nat.zero_add, length_append, hbefore, hafter]
  rw [hview, hview']
  rcases h.kept with ⟨hgap, hgap'⟩ | rfl | rfl
  · exact .inside _ _ (length_pos_iff.mpr hgap) (length_pos_iff.mpr hgap')
  · exact .start _ _ _
  · rw [plainViewFrom, append_nil, append_nil]
    exact .stop _ _ _

theorem words_of_sameLayout {t' : NestedText} (h : SameLayout t t') (name : Bytes) :
    words (replaceName isIdentifierByte name [some 0] t'.view) =
      words (replaceName isIdentifierByte name [some 0] t.view) := by
  induction h with
  | refl => rfl
  | tail _ hlast ih =>
    obtain ⟨before, gap, gap', after, hrelaid⟩ := hlast
    rw [← ih]
    exact (words_replaceName_of_reshapes hrelaid.reshapes).symm

/-! ### Fingerprints -/

def fingerprint (t : NestedText) (hash : Bytes → ℕ) (name : Bytes) : ℕ :=
  (defFingerprints hash t.source t.span name t.nested).text

/-- The text fingerprint hashes the text in which nested definitions and white space are blank,
blanks are collapsed and trimmed, and the name is a zero byte. If the name is an identifier, then
neither a new layout nor an edit of nested definitions changes the fingerprint, nor does a new
name that does not occur. -/
theorem fingerprint_spec (t : NestedText) (hash : Bytes → ℕ) (name : Bytes)
    (hidentifiers : t.UncutIdentifiers) (hname : t.UncutName name) : t.fingerprint hash name =
      hash ([0x20].intercalate (words (maskedView t.bytes name t.isNested))) ∧
    ((∀ b ∈ name, isIdentifierByte b = true) →
      (∀ t' : NestedText, t'.UncutIdentifiers → SameLayout t t' →
        t'.fingerprint hash name = t.fingerprint hash name) ∧
      ∀ (name' : Bytes) (t' : NestedText), name ≠ [] → IsName isIdentifierByte name' →
        t'.UncutIdentifiers → name'.map some ∉ pieces isIdentifierByte t.view →
        t'.view = replaceName isIdentifierByte name (name'.map some) t.view →
          t'.fingerprint hash name' = t.fingerprint hash name) := by
  refine ⟨congrArg hash (stream_eq hname), fun hpart => ⟨fun t' hcut hlayout => ?_, ?_⟩⟩
  · refine congrArg hash ?_
    change t'.stream name = t.stream name
    rw [stream_eq_replaceName hpart hcut, stream_eq_replaceName hpart hidentifiers,
      words_of_sameLayout hlayout]
  · intro name' t' hne hname' hcut hnew hview
    refine congrArg hash ?_
    change t'.stream name' = t.stream name
    rw [stream_eq_replaceName hname'.2 hcut, stream_eq_replaceName hpart hidentifiers, hview,
      replaceName_replaceName ⟨hne, hpart⟩ hname' hnew]

/-- A name that is an identifier is not cut if no identifier is. -/
theorem UncutIdentifiers.uncutName (h : t.UncutIdentifiers) {name : Bytes}
    (hname : ∀ b ∈ name, isIdentifierByte b = true) : t.UncutName name := by
  have hspares : ∀ stop, t.SparesIdentifier stop → t.SparesName name stop := by
    rintro stop hstop i hmatch ⟨hstart, hend⟩
    have hbyte := any_of_matchesIdentifierAt hname hmatch
    have hlast := hbyte (stop - 1 - i) (by omega)
    have hnext := hbyte (stop - i) (by omega)
    rw [show i + (stop - 1 - i) = stop - 1 by omega] at hlast
    rw [show i + (stop - i) = stop by omega] at hnext
    exact hstop ⟨by rwa [byteBefore, if_neg (by omega)], hnext⟩
  exact fun inner hinner => ⟨hspares _ (h inner hinner).1, hspares _ (h inner hinner).2⟩

instance (t : NestedText) (stop : ℕ) : Decidable (t.SparesIdentifier stop) :=
  inferInstanceAs (Decidable (¬(_ ∧ _)))

instance (t : NestedText) : Decidable t.UncutIdentifiers := List.decidableBAll _ t.inner

/-- A function with a function inside. -/
def outerFunction : NestedText where
  source := byteString "fn f() { fn g() {} f() }"
  span := (0, 24)
  nested := [(9, 18)]
  ordered := List.forall_mem_singleton.mpr (by decide)

def polynomialHash (bytes : Bytes) : ℕ := bytes.foldl (fun h b => 31 * h + b.toNat) 0

theorem fingerprint_spec_outerFunction : outerFunction.fingerprint polynomialHash (byteString "f") =
      polynomialHash ([0x20].intercalate
        (words (maskedView outerFunction.bytes (byteString "f") outerFunction.isNested))) :=
  have hcut : outerFunction.UncutIdentifiers := by decide
  (fingerprint_spec outerFunction polynomialHash _ hcut
    (hcut.uncutName (forall_mem_singleton.mpr (by decide)))).1

/-! ### Names that are not identifiers -/

/-- A text without nested definitions. -/
def plainText (source : String) (stop : UInt32) : NestedText where
  source := byteString source
  span := (0, stop)
  nested := []
  ordered := by simp

/-- The name `a.b`, and a nested span that starts inside it. -/
def cutName : NestedText where
  source := byteString "a.b"
  span := (0, 3)
  nested := [(2, 3)]
  ordered := List.forall_mem_singleton.mpr (by decide)

/-- A nested span may cut a name that is not one identifier, and another layout may cut a name with
a blank in it. -/
theorem fingerprint_of_other_names : (¬∀ (t : NestedText) (name : Bytes), t.UncutIdentifiers →
      t.stream name = [0x20].intercalate (words (maskedView t.bytes name t.isNested))) ∧
    ¬∀ (t t' : NestedText) (name : Bytes), t.UncutIdentifiers → t'.UncutIdentifiers →
      t.UncutName name → t'.UncutName name → SameLayout t t' → t'.stream name = t.stream name := by
  refine ⟨fun h => ?_, fun h => ?_⟩
  · exact absurd (h cutName (byteString "a.b") (by decide)) (by decide)
  · have hlayout : SameLayout (plainText "a b" 3) (plainText "a  b" 4) := by
      refine Relation.ReflTransGen.single ⟨[0x61], [0x20], [0x20, 0x20], [0x62], ?_⟩
      exact ⟨by decide, by decide, by simp [IsGap, isBlank], by
        intro i hi
        match i, hi with
        | 0, _ => exact Or.inr rfl
        | 1, _ => exact Or.inr rfl, by decide, fun i => by simp [isNested, inner, plainText],
        Or.inl ⟨by decide, by decide⟩⟩
    have huncut : ∀ source stop, (plainText source stop).UncutName (byteString "a b") :=
      fun _ _ inner hinner => nomatch hinner
    exact absurd (h _ _ (byteString "a b") (by decide) (by decide) (huncut _ _) (huncut _ _)
      hlayout) (by decide)

end NestedText

end CodeMoniker
