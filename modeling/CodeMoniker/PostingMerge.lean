import CodeMoniker.Linkage

/-!
# Merging posting lists

A path search reads the references of many posting lists in one increasing stream. The
union keeps the next reference of every list on a heap and skips duplicates; the
intersection runs two unions against each other and lets the one that is behind jump
ahead.

A list and its entry on the heap are kept together here, as one stream whose head is the
entry. `union_collect` and `inter_collect` say that both iterators produce the increasing
list of the references they stand for.
-/

namespace CodeMoniker

open List

/-! ## Streams -/

/-- What every posting has left, the entry on the heap first. -/
abbrev PostingUnion := List (List ReferenceOrdinal)

namespace PostingUnion

def new (postings : List ReferenceSet) : PostingUnion := postings.map (·.elems)

/-- Take the least entry off the heap, with the rest of its stream and the other
streams. -/
def pop : PostingUnion → Option (ReferenceOrdinal × List ReferenceOrdinal × PostingUnion)
  | [] => none
  | [] :: ss => pop ss
  | (r :: rest) :: ss =>
    match pop ss with
    | none => some (r, rest, ss)
    | some (r', rest', ss') =>
      if r ≤ r' then some (r, rest, ss) else some (r', rest', (r :: rest) :: ss')

variable (ss : PostingUnion)

/-- How many references are left. -/
def size : ℕ := (ss.map List.length).sum

def Sorted : Prop := ∀ s ∈ ss, s.Pairwise (· < ·)

def Mem (x : ReferenceOrdinal) : Prop := ∃ s ∈ ss, x ∈ s

@[simp] theorem mem_nil (x : ReferenceOrdinal) : ¬Mem [] x := by simp [Mem]

@[simp] theorem mem_cons {s : List ReferenceOrdinal} {ss : PostingUnion} {x : ReferenceOrdinal} :
    Mem (s :: ss) x ↔ x ∈ s ∨ Mem ss x := by simp [Mem]

@[simp] theorem size_cons (s : List ReferenceOrdinal) (ss : PostingUnion) :
    size (s :: ss) = s.length + size ss := by simp [size]

@[simp] theorem sorted_cons {s : List ReferenceOrdinal} {ss : PostingUnion} :
    Sorted (s :: ss) ↔ s.Pairwise (· < ·) ∧ Sorted ss := by simp [Sorted]

theorem pop_size : ∀ (ss : PostingUnion) {r rest ss'}, pop ss = some (r, rest, ss') →
    size (rest :: ss') < size ss
  | [] :: ss, _, _, _, h => by
    have := pop_size ss h
    simpa using this
  | (r :: rest) :: ss, _, _, _, h => by
    unfold pop at h
    split at h
    · obtain ⟨rfl, rfl, rfl⟩ := by simpa using h
      simp
    · next r' rest' ss' hp =>
      have := pop_size ss hp
      split_ifs at h
      · obtain ⟨rfl, rfl, rfl⟩ := by simpa using h
        simp
      · obtain ⟨rfl, rfl, rfl⟩ := by simpa using h
        simp only [size_cons, length_cons] at this ⊢
        omega

theorem pop_eq_none : ∀ (ss : PostingUnion), pop ss = none → ∀ x, ¬Mem ss x
  | [], _, x => mem_nil x
  | [] :: ss, h, x => by
    have := pop_eq_none ss h x
    simpa using this
  | (r :: rest) :: ss, h, _ => by
    unfold pop at h
    split at h
    · cases h
    · split_ifs at h

/-- The entry taken is the least reference left, and everything else stays. -/
theorem pop_spec : ∀ (ss : PostingUnion) {r rest ss'}, Sorted ss → pop ss = some (r, rest, ss') →
    Sorted (rest :: ss') ∧ (∀ x, Mem ss x ↔ x = r ∨ Mem (rest :: ss') x) ∧ ∀ x, Mem ss x → r ≤ x
  | [] :: ss, _, _, _, hs, h => by
    obtain ⟨h1, h2, h3⟩ := pop_spec ss (sorted_cons.mp hs).2 h
    exact ⟨h1, by simpa using h2, by simpa using h3⟩
  | (r :: rest) :: ss, _, _, _, hs, h => by
    obtain ⟨hhead, hss⟩ := sorted_cons.mp hs
    have hle : ∀ x ∈ r :: rest, r ≤ x := by
      intro x hx
      rcases List.mem_cons.mp hx with rfl | hx
      · exact le_rfl
      · exact ((pairwise_cons.mp hhead).1 x hx).le
    have hrest := (pairwise_cons.mp hhead).2
    unfold pop at h
    split at h
    · next hnone =>
      obtain ⟨rfl, rfl, rfl⟩ := by simpa using h
      have hno := pop_eq_none _ hnone
      refine ⟨sorted_cons.mpr ⟨hrest, hss⟩, fun x => by simp [or_assoc], fun x hx => ?_⟩
      exact hle x ((mem_cons.mp hx).resolve_right (hno x))
    · next r' rest' ss' hp =>
      obtain ⟨h1, h2, h3⟩ := pop_spec ss hss hp
      split_ifs at h with hrr
      · obtain ⟨rfl, rfl, rfl⟩ := by simpa using h
        refine ⟨sorted_cons.mpr ⟨hrest, hss⟩, fun x => by simp [or_assoc], fun x hx => ?_⟩
        rcases mem_cons.mp hx with hx | hx
        · exact hle x hx
        · exact hrr.trans (h3 x hx)
      · obtain ⟨rfl, rfl, rfl⟩ := by simpa using h
        obtain ⟨h4, h5⟩ := sorted_cons.mp h1
        refine ⟨sorted_cons.mpr ⟨h4, sorted_cons.mpr ⟨hhead, h5⟩⟩, fun x => ?_, fun x hx => ?_⟩
        · rw [mem_cons, h2 x, mem_cons, mem_cons, mem_cons]
          tauto
        · rcases mem_cons.mp hx with hx | hx
          · exact (not_le.mp hrr).le.trans (hle x hx)
          · exact h3 x hx

/-! ## Union -/

/-- Skip the entries equal to the reference just returned. -/
def dropDuplicates (reference : ReferenceOrdinal) (ss : PostingUnion) : PostingUnion :=
  match _h : pop ss with
  | none => ss
  | some (duplicate, rest, ss') =>
    if duplicate = reference then dropDuplicates reference (rest :: ss') else ss
termination_by size ss
decreasing_by exact pop_size _ _h

def next : Option (ReferenceOrdinal × PostingUnion) :=
  match pop ss with
  | none => none
  | some (reference, rest, ss') => some (reference, dropDuplicates reference (rest :: ss'))

theorem size_dropDuplicates_le (r : ReferenceOrdinal) (ss : PostingUnion) :
    size (dropDuplicates r ss) ≤ size ss := by
  fun_induction dropDuplicates r ss with
  | case1 ss h => exact le_rfl
  | case2 ss rest ss' h ih => exact ih.trans (pop_size _ h).le
  | case3 ss d rest ss' h hne => exact le_rfl

theorem dropDuplicates_spec (r : ReferenceOrdinal) (ss : PostingUnion) (hs : Sorted ss)
    (hle : ∀ x, Mem ss x → r ≤ x) :
    Sorted (dropDuplicates r ss) ∧ ∀ x, Mem (dropDuplicates r ss) x ↔ Mem ss x ∧ x ≠ r := by
  fun_induction dropDuplicates r ss with
  | case1 ss h =>
    have hno := pop_eq_none _ h
    exact ⟨hs, fun x => by simp [hno x]⟩
  | case2 ss rest ss' h ih =>
    obtain ⟨h1, h2, h3⟩ := pop_spec _ hs h
    obtain ⟨h4, h5⟩ := ih h1 fun x hx => hle x ((h2 x).mpr (Or.inr hx))
    refine ⟨h4, fun x => ?_⟩
    rw [h5 x, h2 x]
    tauto
  | case3 ss d rest ss' h hne =>
    obtain ⟨-, h2, h3⟩ := pop_spec _ hs h
    refine ⟨hs, fun x => ⟨fun hx => ⟨hx, ?_⟩, fun hx => hx.1⟩⟩
    rintro rfl
    have h4 := h3 x hx
    have h5 := hle d ((h2 d).mpr (Or.inl rfl))
    exact hne (le_antisymm h4 h5)

theorem next_size {ss ss' : PostingUnion} {r : ReferenceOrdinal} (h : next ss = some (r, ss')) :
    size ss' < size ss := by
  unfold next at h
  split at h
  · cases h
  · next r' rest ss'' hp =>
    obtain ⟨rfl, rfl⟩ := by simpa using h
    exact (size_dropDuplicates_le _ _).trans_lt (pop_size _ hp)

theorem next_eq_none {ss : PostingUnion} (h : next ss = none) : ∀ x, ¬Mem ss x := by
  unfold next at h
  split at h
  · next hp => exact pop_eq_none _ hp
  · cases h

/-- The union yields the least reference left and drops all of its copies. -/
theorem next_spec {ss ss' : PostingUnion} {r : ReferenceOrdinal} (hs : Sorted ss)
    (h : next ss = some (r, ss')) :
    Sorted ss' ∧ (∀ x, Mem ss x ↔ x = r ∨ Mem ss' x) ∧ ∀ x, Mem ss' x → r < x := by
  unfold next at h
  split at h
  · cases h
  · next r' rest ss'' hp =>
    obtain ⟨rfl, rfl⟩ := by simpa using h
    obtain ⟨h1, h2, h3⟩ := pop_spec _ hs hp
    obtain ⟨h4, h5⟩ := dropDuplicates_spec r' (rest :: ss'') h1 fun x hx =>
      h3 x ((h2 x).mpr (Or.inr hx))
    refine ⟨h4, fun x => ?_, fun x hx => ?_⟩
    · rw [h5 x, h2 x]
      tauto
    · obtain ⟨hmem, hne⟩ := (h5 x).mp hx
      exact lt_of_le_of_ne (h3 x ((h2 x).mpr (Or.inr hmem))) hne.symm

/-- What a loop over the union sees. -/
def collect (ss : PostingUnion) : List ReferenceOrdinal :=
  match _h : next ss with
  | none => []
  | some (r, ss') => r :: collect ss'
termination_by size ss
decreasing_by exact next_size _h

theorem collect_spec (hs : Sorted ss) :
    (collect ss).Pairwise (· < ·) ∧ ∀ x, x ∈ collect ss ↔ Mem ss x := by
  fun_induction collect ss with
  | case1 ss h =>
    have hno := next_eq_none h
    exact ⟨List.Pairwise.nil, fun x => by simp [hno x]⟩
  | case2 ss r ss' h ih =>
    obtain ⟨h1, h2, h3⟩ := next_spec hs h
    obtain ⟨h4, h5⟩ := ih h1
    refine ⟨pairwise_cons.mpr ⟨fun x hx => h3 x ((h5 x).mp hx), h4⟩, fun x => ?_⟩
    rw [List.mem_cons, h5 x, h2 x]

theorem sorted_new (postings : List ReferenceSet) : Sorted (new postings) := by
  intro s hs
  obtain ⟨p, -, rfl⟩ := mem_map.mp hs
  exact p.sorted

theorem mem_new {postings : List ReferenceSet} {x : ReferenceOrdinal} :
    Mem (new postings) x ↔ ∃ p ∈ postings, x ∈ p := by
  simp [Mem, new]

/-! ## Jumping ahead -/

/-- Drop every reference below `target`, one heap entry at a time. -/
def advanceTo (target : ReferenceOrdinal) (ss : PostingUnion) : PostingUnion :=
  match _h : pop ss with
  | none => ss
  | some (reference, rest, ss') =>
    if reference < target then advanceTo target (rest.dropWhile (· < target) :: ss') else ss
termination_by size ss
decreasing_by
  have hsize := pop_size _ _h
  have hdrop := (List.dropWhile_sublist (· < target) : (rest.dropWhile (· < target)).Sublist rest)
  have hlen := hdrop.length_le
  rw [size_cons] at hsize ⊢
  omega

theorem size_advanceTo_le (t : ReferenceOrdinal) (ss : PostingUnion) :
    size (advanceTo t ss) ≤ size ss := by
  fun_induction advanceTo t ss with
  | case1 ss h => exact le_rfl
  | case2 ss r rest ss' h hlt ih =>
    have hsize := pop_size _ h
    have hlen := (dropWhile_sublist (· < t) : (rest.dropWhile (· < t)).Sublist rest).length_le
    rw [size_cons] at hsize ih
    omega
  | case3 ss r rest ss' h hge => exact le_rfl

/-- On an increasing list, dropping a prefix below `t` keeps what is at least `t`. -/
theorem mem_dropWhile_lt {t x : ReferenceOrdinal} : ∀ {l : List ReferenceOrdinal},
    l.Pairwise (· < ·) → (x ∈ l.dropWhile (· < t) ↔ x ∈ l ∧ t ≤ x)
  | [], _ => by simp
  | a :: l, hl => by
    obtain ⟨ha, hl⟩ := pairwise_cons.mp hl
    rw [dropWhile_cons]
    by_cases hat : a < t
    · rw [if_pos (by simpa using hat), mem_dropWhile_lt hl, List.mem_cons]
      refine ⟨fun ⟨h1, h2⟩ => ⟨Or.inr h1, h2⟩, fun ⟨h1, h2⟩ => ⟨h1.resolve_left ?_, h2⟩⟩
      rintro rfl
      exact absurd hat (not_lt.mpr h2)
    · rw [if_neg (by simpa using hat)]
      refine ⟨fun h => ⟨h, ?_⟩, fun h => h.1⟩
      rcases List.mem_cons.mp h with rfl | h
      · exact not_lt.mp hat
      · exact (not_lt.mp hat).trans (ha x h).le

theorem advanceTo_spec (t : ReferenceOrdinal) (ss : PostingUnion) (hs : Sorted ss) :
    Sorted (advanceTo t ss) ∧ ∀ x, Mem (advanceTo t ss) x ↔ Mem ss x ∧ t ≤ x := by
  fun_induction advanceTo t ss with
  | case1 ss h =>
    have hno := pop_eq_none _ h
    exact ⟨hs, fun x => by simp [hno x]⟩
  | case2 ss r rest ss' h hlt ih =>
    obtain ⟨h1, h2, -⟩ := pop_spec _ hs h
    obtain ⟨hrest, hss⟩ := sorted_cons.mp h1
    obtain ⟨h4, h5⟩ := ih (sorted_cons.mpr ⟨hrest.sublist (dropWhile_sublist _), hss⟩)
    refine ⟨h4, fun x => ?_⟩
    rw [h5 x, h2 x, mem_cons, mem_cons, mem_dropWhile_lt hrest]
    refine ⟨?_, ?_⟩
    · rintro ⟨h | h, htx⟩
      · exact ⟨Or.inr (Or.inl h.1), htx⟩
      · exact ⟨Or.inr (Or.inr h), htx⟩
    · rintro ⟨rfl | h | h, htx⟩
      · exact absurd hlt (not_lt.mpr htx)
      · exact ⟨Or.inl ⟨h, htx⟩, htx⟩
      · exact ⟨Or.inr h, htx⟩
  | case3 ss r rest ss' h hge =>
    obtain ⟨-, h2, h3⟩ := pop_spec _ hs h
    exact ⟨hs, fun x => ⟨fun hx => ⟨hx, (not_lt.mp hge).trans (h3 x hx)⟩, fun hx => hx.1⟩⟩

end PostingUnion

/-! ## Intersection -/

structure PostingIntersection where
  left : PostingUnion
  right : PostingUnion
  leftCurrent : Option ReferenceOrdinal
  rightCurrent : Option ReferenceOrdinal

namespace PostingIntersection

open PostingUnion

def new (left right : List ReferenceSet) : PostingIntersection :=
  ⟨PostingUnion.new left, PostingUnion.new right, none, none⟩

/-- The reference a side holds, or the next one of its union. -/
def fill (current : Option ReferenceOrdinal) (ss : PostingUnion) :
    Option (ReferenceOrdinal × PostingUnion) :=
  match current with
  | some r => some (r, ss)
  | none => ss.next

/-- References left on one side, the held one included. -/
def sideSize (current : Option ReferenceOrdinal) (ss : PostingUnion) : ℕ :=
  (if current.isSome then 1 else 0) + ss.size

variable {current : Option ReferenceOrdinal}

theorem fill_size {ss ss' : PostingUnion}
    {r : ReferenceOrdinal} (h : fill current ss = some (r, ss')) :
    ss'.size < sideSize current ss := by
  unfold fill at h
  unfold sideSize
  split at h
  · obtain ⟨rfl, rfl⟩ := by simpa using h
    simp
  · have := next_size h
    simpa using this

/-- The side that is behind jumps to the other one; equal references are returned. -/
def next (st : PostingIntersection) : Option (ReferenceOrdinal × PostingIntersection) :=
  match _hl : fill st.leftCurrent st.left, _hr : fill st.rightCurrent st.right with
  | some (l, left), some (r, right) =>
    if l < r then next ⟨left.advanceTo r, right, none, some r⟩
    else if r < l then next ⟨left, right.advanceTo l, some l, none⟩
    else some (l, ⟨left, right, none, none⟩)
  | _, _ => none
termination_by sideSize st.leftCurrent st.left + sideSize st.rightCurrent st.right
decreasing_by
  · have h1 := fill_size _hl
    have h2 := fill_size _hr
    have h3 := size_advanceTo_le r left
    simp only [sideSize, Option.isSome_none, Option.isSome_some, Bool.false_eq_true, if_false,
      if_true] at h1 h2 ⊢
    omega
  · have h1 := fill_size _hl
    have h2 := fill_size _hr
    have h3 := size_advanceTo_le l right
    simp only [sideSize, Option.isSome_none, Option.isSome_some, Bool.false_eq_true, if_false,
      if_true] at h1 h2 ⊢
    omega

variable (st : PostingIntersection)

def size : ℕ :=
  sideSize st.leftCurrent st.left + sideSize st.rightCurrent st.right

theorem next_inter_size {st st' : PostingIntersection} {r : ReferenceOrdinal}
    (h : st.next = some (r, st')) : st'.size < st.size := by
  fun_induction next st with
  | case1 st l left r right hl hr hlt ih =>
    have h1 := fill_size hl
    have h2 := fill_size hr
    have h3 := size_advanceTo_le r left
    have h4 := ih h
    simp only [size, sideSize, Option.isSome_none, Option.isSome_some, Bool.false_eq_true, if_false,
      if_true] at h1 h2 h4 ⊢
    omega
  | case2 st l left r right hl hr hlt hgt ih =>
    have h1 := fill_size hl
    have h2 := fill_size hr
    have h3 := size_advanceTo_le l right
    have h4 := ih h
    simp only [size, sideSize, Option.isSome_none, Option.isSome_some, Bool.false_eq_true, if_false,
      if_true] at h1 h2 h4 ⊢
    omega
  | case3 st l left r right hl hr hlt hgt =>
    obtain ⟨-, rfl⟩ := by simpa using h
    have h1 := fill_size hl
    have h2 := fill_size hr
    simp only [size, sideSize, Option.isSome_none, Bool.false_eq_true, if_false] at h1 h2 ⊢
    omega
  | case4 st hnone => cases h

/-- What a loop over the intersection sees. -/
def collect (st : PostingIntersection) : List ReferenceOrdinal :=
  match _h : st.next with
  | none => []
  | some (r, st') => r :: collect st'
termination_by st.size
decreasing_by exact next_inter_size _h

/-- One side : increasing streams behind the held reference. -/
structure Side (current : Option ReferenceOrdinal) (ss : PostingUnion) : Prop where
  sorted : ss.Sorted
  behind : ∀ c ∈ current, ∀ x, ss.Mem x → c < x

def SideMem (current : Option ReferenceOrdinal) (ss : PostingUnion) (x : ReferenceOrdinal) : Prop :=
  x ∈ current ∨ ss.Mem x

theorem fill_spec {ss ss' : PostingUnion}
    {r : ReferenceOrdinal} (hs : Side current ss) (h : fill current ss = some (r, ss')) :
    ss'.Sorted ∧ (∀ x, SideMem current ss x ↔ x = r ∨ ss'.Mem x) ∧ ∀ x, ss'.Mem x → r < x := by
  unfold fill at h
  split at h
  · obtain ⟨rfl, rfl⟩ := by simpa using h
    exact ⟨hs.sorted, fun x => by simp [SideMem, eq_comm], hs.behind _ rfl⟩
  · obtain ⟨h1, h2, h3⟩ := next_spec hs.sorted h
    exact ⟨h1, fun x => by simp [SideMem, h2 x], h3⟩

theorem fill_eq_none {ss : PostingUnion}
    (h : fill current ss = none) (x : ReferenceOrdinal) : ¬SideMem current ss x := by
  unfold fill at h
  split at h
  · cases h
  · simpa [SideMem] using next_eq_none h x

def Inv : Prop :=
  Side st.leftCurrent st.left ∧ Side st.rightCurrent st.right

def Mem (x : ReferenceOrdinal) : Prop :=
  SideMem st.leftCurrent st.left x ∧ SideMem st.rightCurrent st.right x

/-- The intersection yields the least reference both sides have left. -/
theorem next_inter_spec (hst : Inv st) : match st.next with
    | none => ∀ x, ¬Mem st x
    | some (r, st') => Inv st' ∧ (∀ x, Mem st x ↔ x = r ∨ Mem st' x) ∧ ∀ x, Mem st' x → r < x := by
  fun_induction next st with
  | case1 st l left r right hl hr hlt ih =>
    obtain ⟨l1, l2, l3⟩ := fill_spec hst.1 hl
    obtain ⟨r1, r2, r3⟩ := fill_spec hst.2 hr
    obtain ⟨a1, a2⟩ := advanceTo_spec r left l1
    have hmem : ∀ x, Mem ⟨left.advanceTo r, right, none, some r⟩ x ↔ Mem st x := by
      intro x
      simp only [Mem, l2 x, r2 x]
      simp only [SideMem, a2 x, Option.mem_def, reduceCtorEq, false_or, Option.some.injEq]
      refine ⟨fun ⟨⟨h1, _⟩, h2⟩ => ⟨Or.inr h1, h2.imp Eq.symm id⟩, fun ⟨h1, h2⟩ => ?_⟩
      have hrx : r ≤ x := by
        rcases h2 with rfl | h2
        · exact le_rfl
        · exact (r3 x h2).le
      refine ⟨⟨h1.resolve_left ?_, hrx⟩, h2.imp Eq.symm id⟩
      rintro rfl
      exact absurd hlt (not_lt.mpr hrx)
    have hih := ih ⟨⟨a1, by simp⟩, ⟨r1, fun c hc x hx => by
      obtain rfl := Option.mem_some.mp hc
      exact r3 x hx⟩⟩
    split at hih
    · intro x hx
      exact hih x ((hmem x).mpr hx)
    · exact ⟨hih.1, fun x => (hmem x).symm.trans (hih.2.1 x), hih.2.2⟩
  | case2 st l left r right hl hr hlt hgt ih =>
    obtain ⟨l1, l2, l3⟩ := fill_spec hst.1 hl
    obtain ⟨r1, r2, r3⟩ := fill_spec hst.2 hr
    obtain ⟨a1, a2⟩ := advanceTo_spec l right r1
    have hmem : ∀ x, Mem ⟨left, right.advanceTo l, some l, none⟩ x ↔ Mem st x := by
      intro x
      simp only [Mem, l2 x, r2 x]
      simp only [SideMem, a2 x, Option.mem_def, reduceCtorEq, false_or, Option.some.injEq]
      refine ⟨fun ⟨h1, h2, _⟩ => ⟨h1.imp Eq.symm id, Or.inr h2⟩, fun ⟨h1, h2⟩ => ?_⟩
      have hlx : l ≤ x := by
        rcases h1 with rfl | h1
        · exact le_rfl
        · exact (l3 x h1).le
      refine ⟨h1.imp Eq.symm id, h2.resolve_left ?_, hlx⟩
      rintro rfl
      exact absurd hgt (not_lt.mpr hlx)
    have hih := ih ⟨⟨l1, fun c hc x hx => by
      obtain rfl := Option.mem_some.mp hc
      exact l3 x hx⟩, ⟨a1, by simp⟩⟩
    split at hih
    · intro x hx
      exact hih x ((hmem x).mpr hx)
    · exact ⟨hih.1, fun x => (hmem x).symm.trans (hih.2.1 x), hih.2.2⟩
  | case3 st l left r right hl hr hlt hgt =>
    obtain rfl : l = r := le_antisymm (not_lt.mp hgt) (not_lt.mp hlt)
    obtain ⟨l1, l2, l3⟩ := fill_spec hst.1 hl
    obtain ⟨r1, r2, r3⟩ := fill_spec hst.2 hr
    refine ⟨⟨⟨l1, by simp⟩, ⟨r1, by simp⟩⟩, fun x => ?_, fun x hx => ?_⟩
    · simp only [Mem, l2 x, r2 x]
      simp only [SideMem, Option.mem_def, reduceCtorEq, false_or]
      refine ⟨fun ⟨h1, h2⟩ => ?_, fun h => h.elim (fun h => ⟨Or.inl h, Or.inl h⟩) fun h =>
        ⟨Or.inr h.1, Or.inr h.2⟩⟩
      rcases h1 with h1 | h1
      · exact Or.inl h1
      · rcases h2 with h2 | h2
        · exact Or.inl h2
        · exact Or.inr ⟨h1, h2⟩
    · exact l3 x (by simpa [SideMem] using hx.1)
  | case4 st hnone =>
    intro x hx
    cases hl : fill st.leftCurrent st.left with
    | none => exact fill_eq_none hl x hx.1
    | some p =>
      cases hr : fill st.rightCurrent st.right with
      | none => exact fill_eq_none hr x hx.2
      | some q => exact hnone _ _ _ _ hl hr

theorem collect_inter_spec (hst : Inv st) :
    st.collect.Pairwise (· < ·) ∧ ∀ x, x ∈ st.collect ↔ Mem st x := by
  fun_induction collect st with
  | case1 st h =>
    have hno := next_inter_spec st hst
    rw [h] at hno
    exact ⟨List.Pairwise.nil, fun x => by simp [hno x]⟩
  | case2 st r st' h ih =>
    have hnext := next_inter_spec st hst
    rw [h] at hnext
    obtain ⟨h1, h2, h3⟩ := hnext
    obtain ⟨h4, h5⟩ := ih h1
    refine ⟨pairwise_cons.mpr ⟨fun x hx => h3 x ((h5 x).mp hx), h4⟩, fun x => ?_⟩
    rw [List.mem_cons, h5 x, h2 x]

theorem inv_new (left right : List ReferenceSet) : Inv (new left right) :=
  ⟨⟨sorted_new left, by simp [new]⟩, ⟨sorted_new right, by simp [new]⟩⟩

theorem mem_new_inter {left right : List ReferenceSet} {x : ReferenceOrdinal} :
    Mem (new left right) x ↔ (∃ p ∈ left, x ∈ p) ∧ ∃ p ∈ right, x ∈ p := by
  simp [Mem, SideMem, new, mem_new]

end PostingIntersection

/-! ## What the iterators produce -/

/-- The references of some posting, in increasing order. -/
def unionOf (postings : List ReferenceSet) : ReferenceSet := postings.foldr (· ∪ ·) ∅

@[simp] theorem mem_unionOf {x : ReferenceOrdinal} : ∀ {postings : List ReferenceSet},
    x ∈ unionOf postings ↔ ∃ p ∈ postings, x ∈ p
  | [] => by simp [unionOf]
  | p :: postings => by
    have ih := @mem_unionOf x postings
    simp only [unionOf, foldr_cons, OrdSet.mem_union, exists_mem_cons_iff] at ih ⊢
    rw [ih]

theorem union_collect (postings : List ReferenceSet) :
    (PostingUnion.new postings).collect = (unionOf postings).elems := by
  obtain ⟨hsorted, hmem⟩ := PostingUnion.collect_spec _ (PostingUnion.sorted_new postings)
  refine OrdSet.elems_eq_of_mem_iff hsorted (unionOf postings).sorted fun x => ?_
  rw [hmem x, PostingUnion.mem_new, OrdSet.mem_elems, mem_unionOf]

open PostingIntersection

theorem inter_collect (left right : List ReferenceSet) :
    (new left right).collect = (unionOf left ∩ unionOf right).elems := by
  obtain ⟨hsorted, hmem⟩ := collect_inter_spec _
    (inv_new left right)
  refine OrdSet.elems_eq_of_mem_iff hsorted (unionOf left ∩ unionOf right).sorted fun x => ?_
  rw [hmem x, mem_new_inter, OrdSet.mem_elems, OrdSet.mem_inter, mem_unionOf, mem_unionOf]

/-! ## Calls in any order -/

inductive MergeCall
  | next
  | advanceTo (target : ReferenceOrdinal)

/-- What a union answers to the calls of `next`. -/
def PostingUnion.answers : PostingUnion → List MergeCall → List (Option ReferenceOrdinal)
  | _, [] => []
  | ss, .next :: calls =>
    match ss.next with
    | none => none :: ss.answers calls
    | some (r, ss') => some r :: ss'.answers calls
  | ss, .advanceTo target :: calls => (ss.advanceTo target).answers calls

/-- What a reader of a list answers. -/
def listAnswers : List ReferenceOrdinal → List MergeCall → List (Option ReferenceOrdinal)
  | _, [] => []
  | l, .next :: calls => l.head? :: listAnswers l.tail calls
  | l, .advanceTo target :: calls => listAnswers (l.dropWhile (· < target)) calls

namespace PostingUnion

variable {ss : PostingUnion}

theorem collect_advanceTo (hs : Sorted ss) (t : ReferenceOrdinal) :
    (ss.advanceTo t).collect = ss.collect.dropWhile (· < t) := by
  obtain ⟨hsorted, hmem⟩ := collect_spec ss hs
  obtain ⟨hs', hmem'⟩ := advanceTo_spec t ss hs
  obtain ⟨hsorted', hcollect⟩ := collect_spec _ hs'
  refine OrdSet.elems_eq_of_mem_iff hsorted' (hsorted.sublist (dropWhile_sublist _)) fun x => ?_
  rw [hcollect, hmem', mem_dropWhile_lt hsorted, hmem]

theorem answers_eq (hs : Sorted ss) (calls : List MergeCall) :
    ss.answers calls = listAnswers ss.collect calls := by
  induction calls generalizing ss with
  | nil => rfl
  | cons call calls ih =>
    cases call with
    | next =>
      rw [answers, collect, listAnswers]
      cases h : ss.next with
      | none =>
        dsimp only
        rw [ih hs, collect, h]
        rfl
      | some e =>
        dsimp only
        rw [ih (next_spec hs h).1]
        rfl
    | advanceTo target =>
      rw [answers, listAnswers, ih (advanceTo_spec target ss hs).1, collect_advanceTo hs]

end PostingUnion

/-- The iterators are readers of the increasing lists of the references they stand for, whatever
calls are made in whatever order. -/
theorem postings_merged (postings left right : List ReferenceSet) (calls : List MergeCall) :
    (PostingUnion.new postings).answers calls = listAnswers (unionOf postings).elems calls ∧
      (PostingIntersection.new left right).collect = (unionOf left ∩ unionOf right).elems := by
  rw [PostingUnion.answers_eq (PostingUnion.sorted_new postings), union_collect]
  exact ⟨rfl, inter_collect left right⟩

end CodeMoniker
