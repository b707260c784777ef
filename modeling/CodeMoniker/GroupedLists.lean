import Mathlib

/-!
# Lists in blocks

`listing f keys` lists each key as often as `f` says, one block after the other. A list is
`Grouped` if it is such a listing of its own values. A list that stands for a multiset comes
in one order, or in any order of its blocks (`Arrangement`); whether one begins another is then
a matter of counts (`mayBegin_iff`) and depends on the order unless no order is left to choose
or none begins the other (`begins_settled_iff`).
-/

namespace GroupedLists

open List

variable {α : Type}

/-! ## Listings -/

def listing (f : α → ℕ) (keys : List α) : List α := keys.flatMap fun v => List.replicate (f v) v

variable (f : α → ℕ)

@[simp]
theorem listing_nil : listing f [] = [] := rfl

@[simp]
theorem listing_cons (k : α) (keys : List α) :
    listing f (k :: keys) = replicate (f k) k ++ listing f keys := rfl

@[simp]
theorem listing_append (keys keys' : List α) :
    listing f (keys ++ keys') = listing f keys ++ listing f keys' := flatMap_append

theorem listing_congr {f g : α → ℕ} {keys : List α} (h : ∀ v ∈ keys, f v = g v) :
    listing f keys = listing g keys := by
  induction keys with
  | nil => rfl
  | cons k keys ih =>
    rw [listing_cons, listing_cons, h k mem_cons_self, ih fun v hv => h v (mem_cons_of_mem _ hv)]

theorem mem_listing {f : α → ℕ} {keys : List α} {v : α} :
    v ∈ listing f keys ↔ v ∈ keys ∧ 0 < f v := by
  simp only [listing, mem_flatMap, mem_replicate, Nat.pos_iff_ne_zero]
  constructor
  · rintro ⟨k, hk, hpos, rfl⟩
    exact ⟨hk, hpos⟩
  · rintro ⟨hv, hpos⟩
    exact ⟨v, hv, hpos, rfl⟩

theorem count_listing [DecidableEq α] (f : α → ℕ) {keys : List α} (h : keys.Nodup) (v : α) :
    (listing f keys).count v = if v ∈ keys then f v else 0 := by
  induction keys with
  | nil => rfl
  | cons k keys ih =>
    obtain ⟨hk, hkeys⟩ := nodup_cons.mp h
    rw [listing_cons, count_append, ih hkeys, count_replicate]
    by_cases hv : k = v
    · subst hv
      simp [hk]
    · simp [hv, Ne.symm hv]

/-- Keys that are listed no time may be left out. -/
theorem listing_filter (keys : List α) :
    listing f (keys.filter fun v => 0 < f v) = listing f keys := by
  induction keys with
  | nil => rfl
  | cons k keys ih =>
    by_cases hk : 0 < f k
    · rw [filter_cons_of_pos (by simpa using hk), listing_cons, listing_cons, ih]
    · have hzero : f k = 0 := by omega
      rw [filter_cons_of_neg (by simpa using hk), listing_cons, ih, hzero]
      rfl

/-- A beginning of a listing ends inside one block. -/
theorem prefix_listing {f : α → ℕ} : ∀ {keys xs : List α}, xs ≠ [] → xs <+: listing f keys →
    ∃ (init rest : List α) (last : α) (n : ℕ), keys = init ++ last :: rest ∧
      0 < n ∧ n ≤ f last ∧ xs = listing f init ++ replicate n last
  | [], xs, hne, h => absurd (prefix_nil.mp h) hne
  | k :: keys, xs, hne, h => by
    rw [listing_cons] at h
    rcases Nat.le_total xs.length (replicate (f k) k).length with hlen | hlen
    · obtain ⟨hle, hxs⟩ := prefix_replicate_iff.mp ((isPrefix_append_of_length hlen).mp h)
      exact ⟨[], keys, k, xs.length, rfl, length_pos_iff.mpr hne, hle, hxs⟩
    · obtain ⟨ys, rfl⟩ := prefix_of_prefix_length_le (prefix_append _ _) h hlen
      by_cases hys : ys = []
      · subst hys
        rw [append_nil] at hne ⊢
        have hpos : 0 < f k := by
          have := length_pos_iff.mpr hne
          rwa [length_replicate] at this
        exact ⟨[], keys, k, f k, rfl, hpos, le_rfl, rfl⟩
      · obtain ⟨init, rest, last, n, rfl, hn, hle, rfl⟩ :=
          prefix_listing hys ((prefix_append_right_inj _).mp h)
        exact ⟨k :: init, rest, last, n, rfl, hn, hle, by simp⟩

theorem head?_of_begins {as bs : List α} {v : α} (h : as <+: bs) (hv : as.head? = some v) :
    bs.head? = some v := by
  obtain ⟨t, rfl⟩ := h
  rw [head?_append, hv]
  rfl

variable [DecidableEq α]

/-- The values of a list, each as often as it occurs, in the order of the keys. -/
theorem listing_count_perm {keys xs : List α} (hkeys : keys.Nodup) (h : ∀ v ∈ xs, v ∈ keys) :
    (listing xs.count keys).Perm xs := by
  refine perm_iff_count.mpr fun v => ?_
  rw [count_listing _ hkeys]
  split_ifs with hv
  · rfl
  · exact (count_eq_zero.mpr fun hmem => hv (h v hmem)).symm

/-! ## Grouped lists -/

/-- Each value stands in one block. -/
def Grouped (xs : List α) : Prop :=
  ∃ keys : List α, keys.Nodup ∧ (∀ v, v ∈ keys ↔ v ∈ xs) ∧ xs = listing xs.count keys

theorem grouped_listing {keys : List α} (h : keys.Nodup) : Grouped (listing f keys) := by
  refine ⟨keys.filter fun v => 0 < f v, h.filter _, fun v => ?_, ?_⟩
  · rw [mem_listing, mem_filter, decide_eq_true_iff]
  · rw [← listing_filter f keys]
    refine listing_congr fun v hv => ?_
    rw [count_listing f (h.filter _), if_pos hv]

variable {xs : List α}

theorem grouped_of_nodup (h : xs.Nodup) : Grouped xs := by
  have hlist : listing (fun _ => 1) xs = xs := by
    unfold listing
    simp
  rw [← hlist]
  exact grouped_listing _ h

/-- Any value of a list may come first. -/
theorem exists_grouped_head {v : α} (hv : v ∈ xs) :
    ∃ ys : List α, ys.Perm xs ∧ Grouped ys ∧ ys.head? = some v := by
  have hkeys : (v :: xs.dedup.erase v).Nodup :=
    nodup_cons.mpr ⟨xs.nodup_dedup.not_mem_erase, xs.nodup_dedup.erase v⟩
  refine ⟨listing xs.count (v :: xs.dedup.erase v), listing_count_perm hkeys fun w hw => ?_,
    grouped_listing _ hkeys, ?_⟩
  · by_cases hwv : w = v
    · exact mem_cons.mpr (Or.inl hwv)
    · exact mem_cons_of_mem _ ((mem_erase_of_ne hwv).mpr (mem_dedup.mpr hw))
  · have hpos : 0 < xs.count v := count_pos_iff.mpr hv
    obtain ⟨n, hn⟩ := Nat.exists_eq_succ_of_ne_zero (Nat.ne_of_gt hpos)
    rw [listing_cons, hn, replicate_succ]
    rfl

/-! ## Beginnings -/

/-- As counts go, `xs` may begin `ys` : the values occur as often in both, but for one which `xs`
breaks off. -/
def BeginsCounts (xs ys : List α) (last : α) : Prop :=
  last ∈ xs ∧ xs.count last ≤ ys.count last ∧ ∀ v ∈ xs, v ≠ last → xs.count v = ys.count v

instance (xs ys : List α) (last : α) : Decidable (BeginsCounts xs ys last) :=
  inferInstanceAs (Decidable (_ ∧ _ ∧ _))

theorem BeginsCounts.congr {xs xs' ys ys' : List α} {last : α} (h : BeginsCounts xs ys last)
    (hxs : xs.Perm xs') (hys : ys.Perm ys') : BeginsCounts xs' ys' last := by
  obtain ⟨hmem, hle, hcount⟩ := h
  refine ⟨hxs.mem_iff.mp hmem, ?_, fun v hv hne => ?_⟩
  · rwa [← hxs.count_eq, ← hys.count_eq]
  · rw [← hxs.count_eq, ← hys.count_eq]
    exact hcount v (hxs.mem_iff.mpr hv) hne

variable {xs ys : List α}

/-- A beginning of a grouped list is grouped, and breaks off its last value only. -/
theorem Grouped.of_beginning (h : Grouped ys) (hne : xs ≠ []) (hp : xs <+: ys) :
    Grouped xs ∧ ∃ last, xs.getLast? = some last ∧ BeginsCounts xs ys last := by
  obtain ⟨keys, hkeys, hmem, hys⟩ := h
  rw [hys] at hp
  obtain ⟨init, rest, last, n, rfl, hn, hle, rfl⟩ := prefix_listing hne hp
  have hlast : last ∉ init := by
    have := (nodup_append.mp hkeys).2.2
    exact fun hin => this last hin last mem_cons_self rfl
  have hinit : init.Nodup := (nodup_append.mp hkeys).1
  have hcount : ∀ v, (listing ys.count init ++ replicate n last).count v =
      if v = last then n else if v ∈ init then ys.count v else 0 := by
    intro v
    rw [count_append, count_listing _ hinit, count_replicate]
    by_cases hv : v = last
    · subst hv
      simp [hlast]
    · simp [hv, Ne.symm hv]
  refine ⟨?_, last, ?_, ?_, ?_, ?_⟩
  · have hsame : listing ys.count init ++ replicate n last =
        listing (fun v => if v = last then n else ys.count v) (init ++ [last]) := by
      rw [listing_append, listing_cons, if_pos rfl, listing_nil, append_nil]
      congr 1
      refine listing_congr fun v hv => (if_neg ?_).symm
      rintro rfl
      exact hlast hv
    rw [hsame]
    refine grouped_listing _ (nodup_append.mpr ⟨hinit, nodup_singleton _, ?_⟩)
    rintro v hv w hw rfl
    exact hlast (mem_singleton.mp hw ▸ hv)
  · rw [getLast?_append, getLast?_replicate, if_neg (by omega)]
    rfl
  · exact mem_append_right _ (mem_replicate.mpr ⟨by omega, rfl⟩)
  · rw [hcount, if_pos rfl]
    exact hle
  · intro v hv hne
    rw [hcount, if_neg hne, if_pos]
    rcases mem_append.mp hv with hv | hv
    · exact (mem_listing.mp hv).1
    · exact absurd (mem_replicate.mp hv).2 hne

/-- The key of the last block is the last value. -/
theorem Grouped.exists_init (h : Grouped xs) {last : α} (hlast : xs.getLast? = some last) :
    ∃ init : List α, (init ++ [last]).Nodup ∧ (∀ v, v ∈ init ++ [last] ↔ v ∈ xs) ∧
      xs = listing xs.count (init ++ [last]) := by
  obtain ⟨keys, hkeys, hmem, hxs⟩ := h
  rcases eq_nil_or_concat keys with rfl | ⟨init, k, rfl⟩
  · exact absurd ((hmem last).mpr (mem_of_getLast? hlast)) not_mem_nil
  · rw [concat_eq_append] at hkeys hmem hxs
    have hk : 0 < xs.count k := count_pos_iff.mpr ((hmem k).mp (by simp))
    have hlast' := hlast
    rw [hxs, listing_append, listing_cons, listing_nil, append_nil, getLast?_append,
      getLast?_replicate, if_neg (Nat.ne_of_gt hk)] at hlast'
    obtain rfl := Option.some.inj hlast'
    exact ⟨init, hkeys, hmem, hxs⟩

/-- Counts that allow it put the values of `ys` in an order that `xs` begins. -/
theorem exists_grouped_begun (h : Grouped xs) {last : α}
    (hlast : xs.getLast? = some last) (hcounts : BeginsCounts xs ys last) :
    ∃ zs : List α, zs.Perm ys ∧ Grouped zs ∧ xs <+: zs := by
  obtain ⟨-, hle, hcount⟩ := hcounts
  obtain ⟨init, hkeys, hmem, hxs⟩ := h.exists_init hlast
  have hinit : ∀ v ∈ init, v ≠ last := by
    rintro v hv rfl
    exact (nodup_append.mp hkeys).2.2 v hv v mem_cons_self rfl
  -- What `ys` has beside the values of `xs` comes behind.
  let others := ys.dedup.filter fun v => v ∉ init ++ [last]
  have hnodup : (init ++ [last] ++ others).Nodup := by
    refine nodup_append.mpr ⟨hkeys, ys.nodup_dedup.filter _, ?_⟩
    rintro v hv w hw rfl
    exact absurd hv (by simpa using (mem_filter.mp hw).2)
  refine ⟨listing ys.count (init ++ [last] ++ others), listing_count_perm hnodup fun v hv => ?_,
    grouped_listing _ hnodup, ?_⟩
  · by_cases hin : v ∈ init ++ [last]
    · exact mem_append_left _ hin
    · exact mem_append_right _
        (mem_filter.mpr ⟨mem_dedup.mpr hv, by simpa using hin⟩)
  · have hsame : listing xs.count init = listing ys.count init :=
      listing_congr fun v hv => hcount v ((hmem v).mp (by simp [hv])) (hinit v hv)
    have hblock : replicate (xs.count last) last <+: replicate (ys.count last) last :=
      prefix_replicate_iff.mpr ⟨by simpa using hle, by simp⟩
    rw [hxs]
    simp only [listing_append, listing_cons, listing_nil, append_nil, append_assoc]
    rw [hsame]
    exact (prefix_append_right_inj _).mpr (hblock.trans (prefix_append _ _))

/-- Any value of a list may come last. -/
theorem exists_grouped_last {v : α} (hv : v ∈ xs) :
    ∃ ys : List α, ys.Perm xs ∧ Grouped ys ∧ ys.getLast? = some v := by
  have hkeys : (xs.dedup.erase v ++ [v]).Nodup := by
    refine nodup_append.mpr ⟨xs.nodup_dedup.erase v, nodup_singleton v, ?_⟩
    rintro w hw u hu rfl
    exact xs.nodup_dedup.not_mem_erase (mem_singleton.mp hu ▸ hw)
  refine ⟨listing xs.count (xs.dedup.erase v ++ [v]), listing_count_perm hkeys fun w hw => ?_,
    grouped_listing _ hkeys, ?_⟩
  · by_cases hwv : w = v
    · exact mem_append_right _ (mem_singleton.mpr hwv)
    · exact mem_append_left _ ((mem_erase_of_ne hwv).mpr (mem_dedup.mpr hw))
  · have hpos : 0 < xs.count v := count_pos_iff.mpr hv
    rw [listing_append, listing_cons, listing_nil, append_nil, getLast?_append,
      getLast?_replicate, if_neg (Nat.ne_of_gt hpos)]
    rfl

/-! ## Arrangements -/

/-- The lists that stand for `xs` : the list itself, or any order of its blocks. -/
def Arrangement (loose : Bool) (xs ys : List α) : Prop :=
  if loose then ys.Perm xs ∧ Grouped ys else ys = xs

/-- No order is left to choose. -/
def Fixed (loose : Bool) (xs : List α) : Prop := loose = true → ∀ v ∈ xs, ∀ w ∈ xs, v = w

/-- Some arrangement of `xs` begins some arrangement of `ys`, as far as counts and blocks go. -/
def MayBegin (loose loose' : Bool) (xs ys : List α) : Prop :=
  if loose' then
    ∃ last, BeginsCounts xs ys last ∧ (loose = true ∨ Grouped xs ∧ xs.getLast? = some last)
  else Arrangement loose xs (ys.take xs.length)

theorem Arrangement.perm {loose : Bool} {xs ys : List α} (h : Arrangement loose xs ys) :
    ys.Perm xs := by
  cases loose with
  | false => exact h ▸ .rfl
  | true => exact h.1

theorem mayBegin_iff {loose loose' : Bool} {xs ys : List α} (hne : xs ≠ []) :
    (∃ as bs, Arrangement loose xs as ∧ Arrangement loose' ys bs ∧ as <+: bs) ↔
      MayBegin loose loose' xs ys := by
  cases loose' with
  | false =>
    constructor
    · rintro ⟨as, bs, has, rfl, hbegin⟩
      rw [MayBegin, if_neg Bool.false_ne_true, ← has.perm.length_eq, ← prefix_iff_eq_take.mp hbegin]
      exact has
    · exact fun h => ⟨_, ys, h, rfl, take_prefix _ _⟩
  | true =>
    rw [MayBegin, if_pos rfl]
    constructor
    · rintro ⟨as, bs, has, hbs, hbegin⟩
      have hasne : as ≠ [] := by
        rintro rfl
        exact hne has.perm.symm.eq_nil
      obtain ⟨hgrouped, last, hlast, hcounts⟩ := hbs.2.of_beginning hasne hbegin
      refine ⟨last, hcounts.congr has.perm hbs.1, ?_⟩
      cases loose with
      | true => exact Or.inl rfl
      | false =>
        obtain rfl : as = xs := has
        exact Or.inr ⟨hgrouped, hlast⟩
    · rintro ⟨last, hcounts, hfree⟩
      obtain ⟨as, has, hgrouped, hlast⟩ : ∃ as, Arrangement loose xs as ∧ Grouped as ∧
          as.getLast? = some last := by
        cases loose with
        | false =>
          obtain ⟨hgrouped, hlast⟩ := hfree.resolve_left Bool.false_ne_true
          exact ⟨xs, rfl, hgrouped, hlast⟩
        | true =>
          obtain ⟨as, hperm, hgrouped, hlast⟩ := exists_grouped_last hcounts.1
          exact ⟨as, ⟨hperm, hgrouped⟩, hgrouped, hlast⟩
      obtain ⟨bs, hperm, hgrouped', hbegin⟩ :=
        exists_grouped_begun hgrouped hlast (hcounts.congr has.perm.symm .rfl)
      exact ⟨as, bs, has, ⟨hperm, hgrouped'⟩, hbegin⟩

theorem Fixed.eq {loose : Bool} {xs as bs : List α} (h : Fixed loose xs)
    (has : Arrangement loose xs as) (hbs : Arrangement loose xs bs) : as = bs := by
  cases loose with
  | false => exact has.trans hbs.symm
  | true =>
    have hsame : ∀ cs : List α, cs.Perm xs → ∀ v ∈ xs, cs = replicate xs.length v := by
      intro cs hcs v hv
      refine eq_replicate_iff.mpr ⟨hcs.length_eq, fun w hw => ?_⟩
      exact h rfl w (hcs.mem_iff.mp hw) v hv
    cases xs with
    | nil => rw [has.1.eq_nil, hbs.1.eq_nil]
    | cons v xs =>
      rw [hsame as has.1 v mem_cons_self, hsame bs hbs.1 v mem_cons_self]

/-- If there is an order to choose, any head may be avoided. -/
theorem exists_arrangement_head {loose : Bool} {xs : List α} (h : ¬Fixed loose xs) (v : α) :
    ∃ as w, Arrangement loose xs as ∧ as.head? = some w ∧ w ≠ v := by
  simp only [Fixed, not_forall] at h
  obtain ⟨rfl, w, hw, u, hu, hne⟩ := h
  by_cases hwv : w = v
  · obtain ⟨as, hperm, hgrouped, hhead⟩ := exists_grouped_head hu
    exact ⟨as, u, ⟨hperm, hgrouped⟩, hhead, fun huv => hne (hwv.trans huv.symm)⟩
  · obtain ⟨as, hperm, hgrouped, hhead⟩ := exists_grouped_head hw
    exact ⟨as, w, ⟨hperm, hgrouped⟩, hhead, hwv⟩

/-- Whether one list begins the other is settled, whatever the arrangements, if and only if
there is nothing to begin with, no order to choose, or no way to begin. -/
theorem begins_settled_iff {loose loose' : Bool} {xs ys : List α} :
    (∀ as as' bs bs', Arrangement loose xs as → Arrangement loose xs as' →
      Arrangement loose' ys bs → Arrangement loose' ys bs' → (as <+: bs ↔ as' <+: bs')) ↔
      xs = [] ∨ (Fixed loose xs ∧ Fixed loose' ys) ∨ ¬MayBegin loose loose' xs ys := by
  constructor
  · intro h
    by_contra hcon
    obtain ⟨hne, hchoice, hmay⟩ : xs ≠ [] ∧ ¬(Fixed loose xs ∧ Fixed loose' ys) ∧
        MayBegin loose loose' xs ys := by
      simpa [not_or] using hcon
    obtain ⟨as, bs, has, hbs, hbegin⟩ := (mayBegin_iff hne).mpr hmay
    obtain ⟨v, hv⟩ : ∃ v, as.head? = some v := by
      cases as with
      | nil => exact absurd has.perm.symm.eq_nil hne
      | cons v as => exact ⟨v, rfl⟩
    by_cases hfixed : Fixed loose xs
    · -- The right side can be put in an order that starts with another value.
      obtain ⟨bs', w, hbs', hw, hne'⟩ :=
        exists_arrangement_head (fun hf => hchoice ⟨hfixed, hf⟩) v
      have hbegin' := (h as as bs bs' has has hbs hbs').mp hbegin
      exact hne' (Option.some.inj (hw.symm.trans (head?_of_begins hbegin' hv)))
    · obtain ⟨as', w, has', hw, hne'⟩ := exists_arrangement_head hfixed v
      have hbegin' := (h as as' bs bs has has' hbs hbs).mp hbegin
      have hv' := head?_of_begins hbegin hv
      exact hne' (Option.some.inj ((head?_of_begins hbegin' hw).symm.trans hv'))
  · rintro (rfl | ⟨hfixed, hfixed'⟩ | hmay) as as' bs bs' has has' hbs hbs'
    · rw [has.perm.eq_nil, has'.perm.eq_nil]
      exact iff_of_true (List.nil_prefix) (List.nil_prefix)
    · rw [hfixed.eq has has', hfixed'.eq hbs hbs']
    · by_cases hne : xs = []
      · subst hne
        rw [has.perm.eq_nil, has'.perm.eq_nil]
        exact iff_of_true (List.nil_prefix) (List.nil_prefix)
      · have hnone : ∀ as bs, Arrangement loose xs as → Arrangement loose' ys bs → ¬as <+: bs :=
          fun as bs has hbs hbegin => hmay ((mayBegin_iff hne).mp ⟨as, bs, has, hbs, hbegin⟩)
        exact iff_of_false (hnone as bs has hbs) (hnone as' bs' has' hbs')

end GroupedLists
