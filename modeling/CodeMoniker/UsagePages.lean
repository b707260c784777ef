import CodeMoniker.Grouping
import CodeMoniker.Pagination
import CodeMoniker.StableSort

/-!
# Pages of usages

The usages of a symbol are sorted for navigation, and a page is extended until its last row
and the row after it belong to different groups. The sort compares the priority of a kind
where a group compares the kind, and the endpoint before the alias through which the symbol
is used. A row of another group may therefore stand between two rows of a group
(`Interleaves`), and then the page ends inside the group. When there is no such row, the
groups are contiguous and no page splits one (`keepsGroups_iff`).
-/

namespace CodeMoniker.Query

structure UsageDto where
  root : String
  direction : UsageDirection
  reference : String
  kind : String
  actor : String
  context : String
  endpoint : String
  file : String
  lineRange : Option (ℕ × ℕ)
  via : Option String
  deriving DecidableEq, Repr

/-! ## The order of navigation -/

def usageDirectionPriority : UsageDirection → ℕ
  | .incoming => 0
  | .outgoing => 1
  | .both => 2

def usageKindPriority (kind : String) : ℕ :=
  if kind = "calls" ∨ kind = "constructs" then 10
  else if kind = "extends" ∨ kind = "implements" ∨ kind = "inherits" then 20
  else if kind = "reads" ∨ kind = "uses_type" ∨ kind = "returns_type" ∨ kind = "annotates" then 30
  else if kind = "imports" then 40
  else 50

namespace UsageDto

/-- The order of the rows of one actor. -/
def endpointKey (row : UsageDto) : String ×ₗ WithBot String ×ₗ WithBot (ℕ ×ₗ ℕ) ×ₗ String :=
  toLex (row.endpoint, toLex (row.via, toLex (row.lineRange.map toLex, row.reference)))

/-- The order of the rows of one file. -/
def actorKey (row : UsageDto) :
    String ×ₗ String ×ₗ String ×ₗ WithBot String ×ₗ WithBot (ℕ ×ₗ ℕ) ×ₗ String :=
  toLex (row.actor, toLex (row.context, row.endpointKey))

/-- The order of `usage_cmp_for_navigation`. -/
def navigationKey (row : UsageDto) : ℕ ×ₗ ℕ ×ₗ String ×ₗ String ×ₗ
    String ×ₗ String ×ₗ String ×ₗ WithBot String ×ₗ WithBot (ℕ ×ₗ ℕ) ×ₗ String :=
  toLex (usageDirectionPriority row.direction, toLex (usageKindPriority row.kind,
    toLex (row.root, toLex (row.file, row.actorKey))))

end UsageDto

/-- The rows whose reference is not among the seen ones. -/
def retainUnseen (seen : Finset String) : List UsageDto → List UsageDto
  | [] => []
  | row :: rows =>
    if row.reference ∈ seen then retainUnseen seen rows
    else row :: retainUnseen (insert row.reference seen) rows

def deduplicateUsageRows (rows : List UsageDto) : List UsageDto := retainUnseen ∅ rows

/-- The rows that were collected for a symbol, with the direction they were collected for. -/
structure CollectedUsages where
  incoming : List UsageDto
  outgoing : List UsageDto
  direction_incoming : ∀ row ∈ incoming, row.direction = .incoming
  direction_outgoing : ∀ row ∈ outgoing, row.direction = .outgoing

def CollectedUsages.deduplicated (usages : CollectedUsages) : List UsageDto :=
  deduplicateUsageRows usages.incoming ++ deduplicateUsageRows usages.outgoing

/-- The rows that the response pages. -/
def CollectedUsages.rows (usages : CollectedUsages) : List UsageDto :=
  StableSort.stableSort UsageDto.navigationKey usages.deduplicated

/-! ## The pages -/

def sameUsageGroup (left right : UsageDto) : Bool :=
  left.direction == right.direction
    && left.kind == right.kind
    && left.root == right.root
    && left.file == right.file
    && left.via == right.via
    && match left.direction with
      | .incoming => left.actor == right.actor && left.context == right.context
      | .outgoing => left.endpoint == right.endpoint
      | .both =>
        left.actor == right.actor && left.context == right.context
          && left.endpoint == right.endpoint

/-- The end of a page, moved on while the row after it belongs to the group of its last row. -/
def extendGroup (rows : List UsageDto) (end_ : ℕ) : ℕ :=
  if h : end_ < rows.length then
    if sameUsageGroup rows[end_ - 1] rows[end_] then extendGroup rows (end_ + 1) else end_
  else end_
  termination_by rows.length - end_

def expandUsagePageToGroup (rows : List UsageDto) (page : Page) : Page :=
  let start := (page.cursor.map (·.offset)).getD 0
  if page.limit = 0 ∨ rows.length ≤ start then page
  else { page with
    limit := extendGroup rows (min (saturatingAdd start page.limit) rows.length) - start }

/-- The page of a cursor. -/
def fetchUsages (rows : List UsageDto) (limit : ℕ) (generation : Option ℕ)
    (cursor : Option QueryCursor) : Except QueryError (Paged UsageDto) :=
  pageRows rows (expandUsagePageToGroup rows ⟨cursor, limit⟩) generation

/-- Rows of one group are next to each other and on one page. -/
structure KeepsGroups (rows : List UsageDto) : Prop where
  contiguous : ∀ {i j k : ℕ} {x y z : UsageDto}, i ≤ j → j ≤ k → rows[i]? = some x →
    rows[j]? = some y → rows[k]? = some z → sameUsageGroup x z → sameUsageGroup x y
  page : ∀ {limit : ℕ} {generation : Option ℕ} {page : Paged UsageDto},
    Paging.Reached (·.nextCursor) (fetchUsages rows limit generation) page →
      ∀ x ∈ page.items, ∀ y ∈ rows, sameUsageGroup x y → y ∈ page.items

/-- The row `y` is sorted between the rows `x` and `z` of another group. -/
inductive Interleaves (x y z : UsageDto) : Prop
  | incoming : x.direction = .incoming → sameUsageGroup x z → y.direction = x.direction →
      usageKindPriority y.kind = usageKindPriority x.kind → y.root = x.root → y.file = x.file →
      y.actor = x.actor → y.context = x.context →
      x.endpointKey < y.endpointKey → y.endpointKey < z.endpointKey →
      y.kind ≠ x.kind ∨ y.via ≠ x.via → Interleaves x y z
  | outgoing : x.direction = .outgoing → sameUsageGroup x z → y.direction = x.direction →
      usageKindPriority y.kind = usageKindPriority x.kind → y.root = x.root → y.file = x.file →
      x.actorKey < y.actorKey → y.actorKey < z.actorKey →
      y.kind ≠ x.kind ∨ y.endpoint ≠ x.endpoint ∨ y.via ≠ x.via → Interleaves x y z

/-! ## Groups and the order -/

/-- What the rows of a group have in common. -/
def usageGroup (row : UsageDto) : UsageDirection × String × String × String × Option String ×
    Option (String × String) × Option String :=
  (row.direction, row.kind, row.root, row.file, row.via,
    if row.direction = .outgoing then none else some (row.actor, row.context),
    if row.direction = .incoming then none else some row.endpoint)

variable {x y : UsageDto}

theorem sameUsageGroup_iff : sameUsageGroup x y ↔ usageGroup x = usageGroup y := by
  unfold sameUsageGroup usageGroup
  by_cases hdirection : x.direction = y.direction
  · rw [← hdirection]
    cases x.direction <;> simp [and_assoc]
  · simp [hdirection]

theorem direction_eq_of_priority : ∀ {d d' : UsageDirection},
    usageDirectionPriority d = usageDirectionPriority d' → d = d'
  | .incoming, .incoming, _ | .outgoing, .outgoing, _ | .both, .both, _ => rfl

/-- The order of two rows of one direction, kind priority, root and file. -/
theorem navigationKey_lt_iff (hd : y.direction = x.direction)
    (hk : usageKindPriority y.kind = usageKindPriority x.kind) (hr : y.root = x.root)
    (hf : y.file = x.file) : x.navigationKey < y.navigationKey ↔ x.actorKey < y.actorKey := by
  unfold UsageDto.navigationKey
  rw [hd, hk, hr, hf]
  simp only [Grouping.lex_lt_iff]

theorem actorKey_lt_iff (ha : y.actor = x.actor) (hc : y.context = x.context) :
    x.actorKey < y.actorKey ↔ x.endpointKey < y.endpointKey := by
  unfold UsageDto.actorKey
  rw [ha, hc]
  simp only [Grouping.lex_lt_iff]

theorem between_of_navigationKey {x y z : UsageDto} (hd : z.direction = x.direction)
    (hk : z.kind = x.kind) (hr : z.root = x.root) (hf : z.file = x.file)
    (hxy : x.navigationKey < y.navigationKey) (hyz : y.navigationKey < z.navigationKey) :
    y.direction = x.direction ∧ usageKindPriority y.kind = usageKindPriority x.kind ∧
      y.root = x.root ∧ y.file = x.file ∧ x.actorKey < y.actorKey ∧ y.actorKey < z.actorKey := by
  unfold UsageDto.navigationKey at hxy hyz
  rw [hd, hk, hr, hf] at hyz
  obtain ⟨hd, hxy, hyz⟩ := Grouping.lex_between hxy hyz
  obtain ⟨hk, hxy, hyz⟩ := Grouping.lex_between hxy hyz
  obtain ⟨hr, hxy, hyz⟩ := Grouping.lex_between hxy hyz
  obtain ⟨hf, hxy, hyz⟩ := Grouping.lex_between hxy hyz
  exact ⟨direction_eq_of_priority hd, hk, hr, hf, hxy, hyz⟩

theorem between_of_actorKey {x y z : UsageDto} (ha : z.actor = x.actor) (hc : z.context = x.context)
    (hxy : x.actorKey < y.actorKey) (hyz : y.actorKey < z.actorKey) :
    y.actor = x.actor ∧ y.context = x.context ∧ x.endpointKey < y.endpointKey ∧
      y.endpointKey < z.endpointKey := by
  unfold UsageDto.actorKey at hxy hyz
  rw [ha, hc] at hyz
  obtain ⟨ha, hxy, hyz⟩ := Grouping.lex_between hxy hyz
  obtain ⟨hc, hxy, hyz⟩ := Grouping.lex_between hxy hyz
  exact ⟨ha, hc, hxy, hyz⟩

/-- The rows between two rows of a group are the rows that interleave and rows of the group. -/
theorem interleaves_iff {x y z : UsageDto} (hx : x.direction ≠ .both)
    (hxz : usageGroup x = usageGroup z) :
    Interleaves x y z ↔ (x.navigationKey < y.navigationKey ∧ y.navigationKey < z.navigationKey) ∧
      usageGroup y ≠ usageGroup x := by
  have hsame : sameUsageGroup x z := sameUsageGroup_iff.mpr hxz
  have hz := hxz.symm
  simp only [usageGroup, Prod.mk.injEq] at hz
  obtain ⟨hd, hk, hr, hf, hvia, hactor, -⟩ := hz
  constructor
  · rintro (⟨hin, -, hd', hk', hr', hf', ha', hc', hxy, hyz, hother⟩ |
      ⟨hout, -, hd', hk', hr', hf', hxy, hyz, hother⟩)
    · simp only [hd, hin, reduceCtorEq, if_false, Option.some.injEq, Prod.mk.injEq] at hactor
      obtain ⟨ha, hc⟩ := hactor
      refine ⟨⟨?_, ?_⟩, fun hgroup => ?_⟩
      · exact (navigationKey_lt_iff hd' hk' hr' hf').mpr ((actorKey_lt_iff ha' hc').mpr hxy)
      · refine (navigationKey_lt_iff (hd.trans hd'.symm) (by rw [hk, hk']) (hr.trans hr'.symm)
          (hf.trans hf'.symm)).mpr ?_
        exact (actorKey_lt_iff (ha.trans ha'.symm) (hc.trans hc'.symm)).mpr hyz
      · simp only [usageGroup, Prod.mk.injEq] at hgroup
        rcases hother with hkind | hvia
        · exact hkind hgroup.2.1
        · exact hvia hgroup.2.2.2.2.1
    · refine ⟨⟨?_, ?_⟩, fun hgroup => ?_⟩
      · exact (navigationKey_lt_iff hd' hk' hr' hf').mpr hxy
      · exact (navigationKey_lt_iff (hd.trans hd'.symm) (by rw [hk, hk']) (hr.trans hr'.symm)
          (hf.trans hf'.symm)).mpr hyz
      · simp only [usageGroup, Prod.mk.injEq, hd', hout, reduceCtorEq, if_false,
          Option.some.injEq] at hgroup
        rcases hother with hkind | hendpoint | hvia
        · exact hkind hgroup.2.1
        · exact hendpoint hgroup.2.2.2.2.2.2
        · exact hvia hgroup.2.2.2.2.1
  · rintro ⟨⟨hxy, hyz⟩, hother⟩
    obtain ⟨hd', hk', hr', hf', hxy, hyz⟩ := between_of_navigationKey hd hk hr hf hxy hyz
    cases hdir : x.direction with
    | incoming =>
      simp only [hd, hdir, reduceCtorEq, if_false, Option.some.injEq, Prod.mk.injEq] at hactor
      obtain ⟨ha, hc⟩ := hactor
      obtain ⟨ha', hc', hxy, hyz⟩ := between_of_actorKey ha hc hxy hyz
      refine .incoming hdir hsame hd' hk' hr' hf' ha' hc' hxy hyz ?_
      by_contra hnot
      obtain ⟨hkind, hvia⟩ := not_or.mp hnot
      refine hother ?_
      simp only [usageGroup, hd', not_not.mp hkind, hr', hf', not_not.mp hvia, ha', hc', hdir,
        if_true]
    | outgoing =>
      refine .outgoing hdir hsame hd' hk' hr' hf' hxy hyz ?_
      by_contra hnot
      obtain ⟨hkind, hnot⟩ := not_or.mp hnot
      obtain ⟨hendpoint, hvia⟩ := not_or.mp hnot
      refine hother ?_
      simp only [usageGroup, hd', not_not.mp hkind, hr', hf', not_not.mp hvia,
        not_not.mp hendpoint, hdir, if_true]
    | both => exact absurd hdir hx

/-! ## The rows are strictly sorted -/

theorem mem_of_mem_retainUnseen {row : UsageDto} : ∀ {seen : Finset String} {rows : List UsageDto},
    row ∈ retainUnseen seen rows → row ∈ rows ∧ row.reference ∉ seen
  | _, [], h => nomatch h
  | seen, first :: rows, h => by
    rw [retainUnseen] at h
    split_ifs at h with hseen
    · obtain ⟨hmem, hnew⟩ := mem_of_mem_retainUnseen h
      exact ⟨List.mem_cons_of_mem first hmem, hnew⟩
    · rcases List.mem_cons.mp h with rfl | h
      · exact ⟨List.mem_cons_self, hseen⟩
      · obtain ⟨hmem, hnew⟩ := mem_of_mem_retainUnseen h
        exact ⟨List.mem_cons_of_mem first hmem, fun hold => hnew (Finset.mem_insert_of_mem hold)⟩

theorem retainUnseen_pairwise : ∀ (seen : Finset String) (rows : List UsageDto),
    (retainUnseen seen rows).Pairwise fun x y => x.reference ≠ y.reference
  | _, [] => List.Pairwise.nil
  | seen, first :: rows => by
    rw [retainUnseen]
    split_ifs
    · exact retainUnseen_pairwise seen rows
    · refine List.pairwise_cons.mpr ⟨fun row hrow hreference => ?_, retainUnseen_pairwise _ rows⟩
      exact (mem_of_mem_retainUnseen hrow).2 (hreference ▸ Finset.mem_insert_self _ seen)

theorem eq_of_navigationKey_eq (h : x.navigationKey = y.navigationKey) :
    x.direction = y.direction ∧ x.reference = y.reference := by
  simp only [UsageDto.navigationKey, UsageDto.actorKey, UsageDto.endpointKey, toLex_inj,
    Prod.mk.injEq] at h
  obtain ⟨hdirection, -, -, -, -, -, -, hrest⟩ := h
  exact ⟨direction_eq_of_priority hdirection, (Prod.mk.inj (toLex_inj.mp (Prod.mk.inj hrest).2)).2⟩

namespace CollectedUsages

variable (usages : CollectedUsages)

theorem direction_ne_both {row : UsageDto} (h : row ∈ usages.deduplicated) :
    row.direction ≠ .both := by
  rcases List.mem_append.mp h with h | h
  · rw [usages.direction_incoming row (mem_of_mem_retainUnseen h).1]
    exact UsageDirection.noConfusion
  · rw [usages.direction_outgoing row (mem_of_mem_retainUnseen h).1]
    exact UsageDirection.noConfusion

theorem rows_sorted : usages.rows.Pairwise (·.navigationKey < ·.navigationKey) := by
  have hne : usages.deduplicated.Pairwise fun x y => x.navigationKey ≠ y.navigationKey := by
    refine List.pairwise_append.mpr ⟨?_, ?_, fun x hx y hy hkey => ?_⟩
    · exact (retainUnseen_pairwise _ _).imp fun hne hkey => hne (eq_of_navigationKey_eq hkey).2
    · exact (retainUnseen_pairwise _ _).imp fun hne hkey => hne (eq_of_navigationKey_eq hkey).2
    · have hdirection := (eq_of_navigationKey_eq hkey).1
      rw [usages.direction_incoming x (mem_of_mem_retainUnseen hx).1,
        usages.direction_outgoing y (mem_of_mem_retainUnseen hy).1] at hdirection
      cases hdirection
  have hperm : usages.rows.Perm usages.deduplicated := List.perm_insertionSort _ _
  have hne' := (hperm.pairwise_iff fun hxy => hxy.symm).mpr hne
  exact (StableSort.sorted_stableSort.and hne').imp fun h => lt_of_le_of_ne h.1 h.2

@[simp] theorem mem_rows {row : UsageDto} : row ∈ usages.rows ↔ row ∈ usages.deduplicated :=
  StableSort.mem_stableSort

/-- The groups are contiguous when no row interleaves. -/
theorem contiguous_rows_iff : Grouping.Contiguous usageGroup usages.rows ↔
    ∀ x ∈ usages.deduplicated, ∀ y ∈ usages.deduplicated, ∀ z ∈ usages.deduplicated,
      ¬Interleaves x y z := by
  rw [Grouping.contiguous_iff usages.rows_sorted]
  simp only [mem_rows]
  constructor
  · intro h x hx y hy z hz hinterleaves
    have hxz : usageGroup x = usageGroup z := by
      rcases hinterleaves with ⟨-, hsame, -⟩ | ⟨-, hsame, -⟩ <;> exact sameUsageGroup_iff.mp hsame
    obtain ⟨⟨hxy, hyz⟩, hother⟩ := (interleaves_iff (usages.direction_ne_both hx) hxz).mp hinterleaves
    exact hother (h x hx y hy z hz hxy hyz hxz)
  · intro h x hx y hy z hz hxy hyz hxz
    by_contra hother
    exact h x hx y hy z hz
      ((interleaves_iff (usages.direction_ne_both hx) hxz).mpr ⟨⟨hxy, hyz⟩, hother⟩)

end CollectedUsages

/-! ## The pages end between groups -/

section Pages

variable {rows : List UsageDto} {limit : ℕ} {generation : Option ℕ}

theorem le_extendGroup (e : ℕ) : e ≤ extendGroup rows e := by
  fun_induction extendGroup rows e with
  | case1 e _ _ ih => omega
  | case2 => exact le_rfl
  | case3 => exact le_rfl

theorem extendGroup_le {e : ℕ} (h : e ≤ rows.length) : extendGroup rows e ≤ rows.length := by
  fun_induction extendGroup rows e with
  | case1 e hlt _ ih => exact ih hlt
  | case2 => exact h
  | case3 => exact h

theorem boundary_extendGroup {e : ℕ} (h : 0 < e) :
    Grouping.Boundary usageGroup rows (extendGroup rows e) := by
  fun_induction extendGroup rows e with
  | case1 e hlt _ ih => exact ih (by omega)
  | case2 e hlt hother =>
    intro i x y hi hx hy hgroup
    obtain rfl : i = e - 1 := by omega
    rw [List.getElem?_eq_getElem (by omega)] at hx hy
    obtain rfl := Option.some.inj hx
    obtain rfl := Option.some.inj hy
    exact hother (sameUsageGroup_iff.mpr hgroup)
  | case3 e hend =>
    intro i x y _ _ hy
    exact absurd (List.getElem?_eq_some_iff.mp hy).1 hend

/-- Where a page that starts at `s` stops. -/
def groupStop (rows : List UsageDto) (limit s : ℕ) : ℕ :=
  if limit = 0 then s else extendGroup rows (min (saturatingAdd s limit) rows.length)

theorem groupStop_bounds {s : ℕ} (hs : s ≤ rows.length) (hrows : rows.length ≤ maxU64) :
    s ≤ groupStop rows limit s ∧ groupStop rows limit s ≤ rows.length := by
  unfold groupStop
  split_ifs
  · exact ⟨le_rfl, hs⟩
  · have hle : s ≤ min (saturatingAdd s limit) rows.length := by
      unfold saturatingAdd
      omega
    exact ⟨hle.trans (le_extendGroup _), extendGroup_le (Nat.min_le_right _ _)⟩

/-- A page of usages is a page of rows that stops at the end of a group. -/
theorem fetchUsages_eq {cursor : Option QueryCursor} {s : ℕ}
    (hcursor : (cursor.map (·.offset)).getD 0 = s) (hs : s ≤ rows.length)
    (hrows : rows.length ≤ maxU64) : ∃ limit', pageStop rows limit' s = groupStop rows limit s ∧
      fetchUsages rows limit generation cursor = fetchPage rows limit' generation cursor := by
  obtain ⟨hle, hend⟩ := @groupStop_bounds rows limit s hs hrows
  unfold fetchUsages expandUsagePageToGroup
  simp only [hcursor]
  split_ifs with hsame
  · refine ⟨limit, ?_, rfl⟩
    rcases hsame with rfl | hstart
    · unfold pageStop saturatingAdd groupStop
      rw [if_pos rfl]
      omega
    · unfold pageStop saturatingAdd
      omega
  · obtain ⟨hlimit, hstart⟩ := not_or.mp hsame
    refine ⟨_, ?_, rfl⟩
    unfold groupStop at hle hend ⊢
    rw [if_neg hlimit] at hle hend ⊢
    generalize extendGroup rows (min (saturatingAdd s limit) rows.length) = e at hle hend ⊢
    unfold pageStop saturatingAdd
    omega

theorem serves_usages (hrows : rows.length ≤ maxU64) :
    Paging.Serves rows (groupStop rows limit) (⟨·, generation⟩)
      (fun page : Paged UsageDto => page.items) (·.nextCursor)
      (fetchUsages rows limit generation) where
  first := by
    obtain ⟨limit', hstop, hfetch⟩ := @fetchUsages_eq rows limit generation none 0 rfl
      (Nat.zero_le _) hrows
    obtain ⟨page, hpage, hsegment⟩ := (@serves UsageDto rows limit' generation).first
    refine ⟨page, hfetch.trans hpage, ?_, ?_⟩
    · rw [← hstop, hsegment.items]
    · rw [← hstop, hsegment.next]
  rest s hs := by
    obtain ⟨limit', hstop, hfetch⟩ := @fetchUsages_eq rows limit generation (some ⟨s, generation⟩) s
      rfl hs.le hrows
    obtain ⟨page, hpage, hsegment⟩ := (@serves UsageDto rows limit' generation).rest s hs
    refine ⟨page, hfetch.trans hpage, ?_, ?_⟩
    · rw [← hstop, hsegment.items]
    · rw [← hstop, hsegment.next]

theorem boundary_groupStop (hlimit : limit ≠ 0) (hrows : rows.length ≤ maxU64) (s : ℕ) :
    Grouping.Boundary usageGroup rows (groupStop rows limit s) := by
  unfold groupStop
  rw [if_neg hlimit]
  rcases Nat.eq_zero_or_pos rows.length with hnil | hpos
  · intro i x y _ _ hy
    have hlt := (List.getElem?_eq_some_iff.mp hy).1
    omega
  · refine boundary_extendGroup ?_
    have hmax : 0 < maxU64 := lt_of_lt_of_le hpos hrows
    unfold saturatingAdd
    omega

/-- On a page that is reached is the whole group of each of its rows. -/
theorem mem_page_of_group (hrows : rows.length ≤ maxU64)
    (hcontiguous : Grouping.Contiguous usageGroup rows) {page : Paged UsageDto}
    (hpage : Paging.Reached (·.nextCursor) (fetchUsages rows limit generation) page)
    {x y : UsageDto} (hx : x ∈ page.items) (hy : y ∈ rows) (hxy : usageGroup x = usageGroup y) :
    y ∈ page.items := by
  obtain ⟨s, hsegment, hstart⟩ := hpage.isSegment (serves_usages hrows)
  rw [hsegment.items] at hx ⊢
  by_cases hlimit : limit = 0
  · simp [groupStop, hlimit] at hx
  · refine hcontiguous.mem_segment ?_ (boundary_groupStop hlimit hrows s) hx hy hxy
    rcases hstart with rfl | ⟨-, r, rfl⟩
    · intro i _ _ hi
      omega
    · exact boundary_groupStop hlimit hrows r

end Pages

/-! ## Groups stay together -/

/-- No group of usages is split exactly when no row interleaves a group. -/
theorem keepsGroups_iff (usages : CollectedUsages) (hrows : usages.rows.length ≤ maxU64) :
    KeepsGroups usages.rows ↔
      ∀ x ∈ usages.deduplicated, ∀ y ∈ usages.deduplicated, ∀ z ∈ usages.deduplicated,
        ¬Interleaves x y z := by
  constructor
  · intro h
    refine usages.contiguous_rows_iff.mp fun hij hjk hx hy hz hxz => ?_
    exact (sameUsageGroup_iff.mp (h.contiguous hij hjk hx hy hz (sameUsageGroup_iff.mpr hxz))).symm
  · intro h
    have hcontiguous : Grouping.Contiguous usageGroup usages.rows :=
      usages.contiguous_rows_iff.mpr h
    refine ⟨fun hij hjk hx hy hz hxz => ?_, fun hpage x hx y hy hxy => ?_⟩
    · exact sameUsageGroup_iff.mpr
        (hcontiguous hij hjk hx hy hz (sameUsageGroup_iff.mp hxz)).symm
    · exact mem_page_of_group hrows hcontiguous hpage hx hy (sameUsageGroup_iff.mp hxy)

/-- An incoming usage of the type `T` by the function `f`. -/
def usageOfType (kind reference : String) (line : ℕ) : UsageDto where
  root := "app"
  direction := .incoming
  reference := reference
  kind := kind
  actor := "f"
  context := "f()"
  endpoint := "T"
  file := "src/main.rs"
  lineRange := some (line, line)
  via := none

def usagesOfType (kinds : List String) : CollectedUsages where
  incoming := kinds.zipIdx.map fun (kind, line) => usageOfType kind s!"r{line}" line
  outgoing := []
  direction_incoming row hrow := by
    obtain ⟨_, -, rfl⟩ := List.mem_map.mp hrow
    rfl
  direction_outgoing _ hrow := nomatch hrow

theorem keepsGroups_calls : KeepsGroups (usagesOfType ["calls", "calls", "calls"]).rows := by
  have hcalls : ∀ row ∈ (usagesOfType ["calls", "calls", "calls"]).deduplicated,
      row.direction = .incoming ∧ row.kind = "calls" ∧ row.via = none := by
    decide
  refine (keepsGroups_iff _ (by decide)).mpr fun x hx y hy z _ h => ?_
  obtain ⟨hdirection, hkind, hvia⟩ := hcalls x hx
  obtain ⟨-, hkind', hvia'⟩ := hcalls y hy
  rcases h with ⟨-, -, -, -, -, -, -, -, -, -, hother⟩ | ⟨hout, -⟩
  · rcases hother with hother | hother
    · exact hother (hkind'.trans hkind.symm)
    · exact hother (hvia'.trans hvia.symm)
  · exact absurd (hdirection.symm.trans hout) UsageDirection.noConfusion

/-- A function that names a type on two lines and reads it between them : the first page ends
inside the group of the first line. -/
theorem group_split_by_read : ¬KeepsGroups (usagesOfType ["uses_type", "reads", "uses_type"]).rows ∧
    (fetchUsages (usagesOfType ["uses_type", "reads", "uses_type"]).rows 1 (some 7) none).toOption.map
      (·.items) = some [usageOfType "uses_type" "r0" 0] ∧
    sameUsageGroup (usageOfType "uses_type" "r0" 0) (usageOfType "uses_type" "r2" 2) := by
  refine ⟨fun h => ?_, by decide +kernel, by decide +kernel⟩
  have hrows : (usagesOfType ["uses_type", "reads", "uses_type"]).rows =
      [usageOfType "uses_type" "r0" 0, usageOfType "reads" "r1" 1, usageOfType "uses_type" "r2" 2] := by
    decide
  rw [hrows] at h
  have hread : sameUsageGroup (usageOfType "uses_type" "r0" 0) (usageOfType "reads" "r1" 1) :=
    h.contiguous (by decide : 0 ≤ 1) (by decide : 1 ≤ 2) rfl rfl rfl (by decide)
  exact absurd hread (by decide)

end CodeMoniker.Query
