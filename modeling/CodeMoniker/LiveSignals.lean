import CodeMoniker.LiveRefresh

/-!
# Signals of a batch of paths

The watcher reports the changed paths of a file event together. Each path is classified by
itself, and the scan of the batch collects what the paths ask for. A path that demands a
rescan ends the scan.

The event of a batch is the one that its paths give one by one, unless a path demands a rescan
and another one is a note or a file of the git base (`classifyPaths_eq_coalesced_iff`) : their
demands are lost, wherever they stand in the batch.
-/

set_option linter.unusedSectionVars false

namespace CodeMoniker

open List hiding isEmpty

inductive PathLiveSignal where
  | ignore
  | gitBaseChanged
  | notes
  | buildContext
  | manifest
  | source
  deriving DecidableEq

namespace WorkspaceLiveEvent

variable {P : Type} [DecidableEq P]

def coalesce (self other : WorkspaceLiveEvent P) : WorkspaceLiveEvent P :=
  ((WorkspaceLiveRefreshPlan.fromEvent self).coalesce
    (WorkspaceLiveRefreshPlan.fromEvent other)).intoEvent

def coalesceOptional (current : Option (WorkspaceLiveEvent P)) (next : WorkspaceLiveEvent P) :
    Option (WorkspaceLiveEvent P) :=
  some (current.elim next fun current => current.coalesce next)

end WorkspaceLiveEvent

open WorkspaceLiveEvent

/-! ## Plans and their events -/

namespace WorkspaceLiveRefreshPlan

variable {P : Type}

/-- The event of a plan that asks for something. -/
def event (plan : WorkspaceLiveRefreshPlan P) : Option (WorkspaceLiveEvent P) :=
  if plan.isEmpty then none else some plan.intoEvent

theorem eq_of_isEmpty {p : WorkspaceLiveRefreshPlan P} (h : p.isEmpty = true) : p = {} := by
  simp only [isEmpty, Bool.and_eq_true, Bool.not_eq_true', List.isEmpty_iff] at h
  obtain ⟨⟨⟨hrescan, hpaths⟩, hgit⟩, hnotes⟩ := h
  cases p
  simp_all

variable [DecidableEq P]

theorem coalesce_empty (p : WorkspaceLiveRefreshPlan P) : p.coalesce {} = p := by
  simp [coalesce]

theorem foldl_pushUnique_append : ∀ {new old : List P}, new.Nodup → (∀ x ∈ new, x ∉ old) →
    new.foldl pushUnique old = old ++ new
  | [], old, _, _ => (append_nil old).symm
  | x :: new, old, hnodup, hnew => by
    obtain ⟨hx, hnodup⟩ := nodup_cons.mp hnodup
    have hpush : pushUnique old x = old ++ [x] := if_neg (hnew x mem_cons_self)
    rw [foldl_cons, hpush, foldl_pushUnique_append hnodup, append_assoc, singleton_append]
    intro y hy hmem
    rcases mem_append.mp hmem with hmem | hmem
    · exact hnew y (mem_cons_of_mem x hy) hmem
    · exact hx (mem_singleton.mp hmem ▸ hy)

/-- Distinct paths are collected in order. -/
theorem foldl_pushUnique_nil {paths : List P} (h : paths.Nodup) :
    paths.foldl pushUnique [] = paths :=
  foldl_pushUnique_append h fun _ _ => not_mem_nil

theorem empty_coalesce {p : WorkspaceLiveRefreshPlan P} (h : p.sourcePaths.Nodup) :
    ({} : WorkspaceLiveRefreshPlan P).coalesce p = p := by
  simp [coalesce, foldl_pushUnique_nil h]

theorem isEmpty_of_coalesce {p q : WorkspaceLiveRefreshPlan P}
    (h : (p.coalesce q).isEmpty = true) : p.isEmpty = true := by
  simp only [isEmpty, coalesce, Bool.and_eq_true, Bool.not_eq_true', List.isEmpty_iff,
    Bool.or_eq_false_iff] at h ⊢
  obtain ⟨⟨⟨hrescan, hpaths⟩, hgit⟩, hnotes⟩ := h
  have hnone : p.sourcePaths = [] := eq_nil_iff_forall_not_mem.mpr fun x hx => by
    have hmem : x ∈ q.sourcePaths.foldl pushUnique p.sourcePaths :=
      mem_foldl_pushUnique.mpr (Or.inl hx)
    rw [hpaths] at hmem
    cases hmem
  exact ⟨⟨⟨hrescan.1, hnone⟩, hgit.1⟩, hnotes.1⟩

/-- Coalescing events is coalescing their plans. -/
theorem merge_event {p q : WorkspaceLiveRefreshPlan P} (hq : q.sourcePaths.Nodup) :
    p.event.merge WorkspaceLiveEvent.coalesce q.event = (p.coalesce q).event := by
  cases hpempty : p.isEmpty with
  | true =>
    rw [eq_of_isEmpty hpempty, empty_coalesce hq]
    cases q.event <;> rfl
  | false =>
    cases hqempty : q.isEmpty with
    | true =>
      rw [eq_of_isEmpty hqempty, coalesce_empty]
      simp [event, isEmpty]
    | false =>
      have hempty : (p.coalesce q).isEmpty = false := Bool.eq_false_iff.mpr fun hempty => by
        rw [isEmpty_of_coalesce hempty] at hpempty
        cases hpempty
      simp only [event, hpempty, hqempty, hempty, Bool.false_eq_true, if_false]
      simp only [Option.merge, WorkspaceLiveEvent.coalesce, fromEvent_intoEvent hpempty,
        fromEvent_intoEvent hqempty, Option.some.injEq]
      cases hp : p.rescan <;> cases hq' : q.rescan <;>
        simp [hp, hq', coalesce, intoEvent]

end WorkspaceLiveRefreshPlan

open WorkspaceLiveRefreshPlan

/-- What the classification of one path reads. -/
structure PathClassifier (P : Type) where
  classify : P → Bool → PathLiveSignal
  normalizePath : P → P
  isDir : P → Bool

/-- What the paths of a batch asked for so far. -/
structure PathSignals (P : Type) where
  event : Option (WorkspaceLiveEvent P) := none
  sourcePaths : List P := []

namespace PathClassifier

variable {P : Type} [DecidableEq P] (c : PathClassifier P)

/-- `none` stands for `PathCollection::RescanRequired`. -/
def collectPathLiveSignal (signal : PathLiveSignal) (path : P) (acc : PathSignals P) :
    Option (PathSignals P) :=
  match signal with
  | .ignore => some acc
  | .gitBaseChanged => some { acc with event := coalesceOptional acc.event .gitBaseChanged }
  | .notes => some { acc with event := coalesceOptional acc.event .notes }
  | .buildContext => none
  | .manifest =>
    some { acc with sourcePaths := pushUnique acc.sourcePaths (c.normalizePath path) }
  | .source =>
    if c.isDir (c.normalizePath path) then none
    else some { acc with sourcePaths := pushUnique acc.sourcePaths (c.normalizePath path) }

def classifyPathsWithGitSignals (paths : List P) (allowGitSignals : Bool) :
    Option (WorkspaceLiveEvent P) :=
  match paths.foldlM
      (fun acc path => c.collectPathLiveSignal (c.classify path allowGitSignals) path acc) {} with
  | none => some .rescanRequired
  | some acc =>
    if acc.sourcePaths.isEmpty then acc.event
    else coalesceOptional acc.event (.sourcesChanged acc.sourcePaths)

/-- The events of the single paths, coalesced in order. -/
def coalesced (paths : List P) (allowGitSignals : Bool) : Option (WorkspaceLiveEvent P) :=
  paths.foldl
    (fun event path =>
      event.merge WorkspaceLiveEvent.coalesce (c.classifyPathsWithGitSignals [path] allowGitSignals))
    none

/-! ## The plan of a batch -/

variable (allow : Bool) (path : P)

/-- The path ends the scan of a batch. -/
def DemandsRescan : Prop :=
  c.classify path allow = .buildContext ∨
    c.classify path allow = .source ∧ c.isDir (c.normalizePath path) = true

instance (path : P) : Decidable (c.DemandsRescan allow path) :=
  inferInstanceAs (Decidable (_ ∨ _))

/-- The path is a note or belongs to the git base. -/
def Signals : Prop :=
  c.classify path allow = .notes ∨ c.classify path allow = .gitBaseChanged

instance (path : P) : Decidable (c.Signals allow path) := inferInstanceAs (Decidable (_ ∨ _))

/-- What one path asks for. -/
def pathPlan : WorkspaceLiveRefreshPlan P :=
  if c.DemandsRescan allow path then { rescan := true }
  else
    match c.classify path allow with
    | .gitBaseChanged => { gitBase := true }
    | .notes => { notes := true }
    | .manifest | .source => { sourcePaths := [c.normalizePath path] }
    | .ignore | .buildContext => {}

variable (paths : List P)

/-- What the paths of a batch ask for. -/
def batchPlan : WorkspaceLiveRefreshPlan P :=
  paths.foldl (fun plan path => plan.coalesce (c.pathPlan allow path)) {}

/-! ## The scan -/

variable {c} {allow}

theorem nodup_pathPlan : (c.pathPlan allow path).sourcePaths.Nodup := by
  unfold pathPlan
  split_ifs
  · exact nodup_nil
  · cases c.classify path allow <;> simp

theorem rescan_pathPlan : (c.pathPlan allow path).rescan = decide (c.DemandsRescan allow path) := by
  unfold pathPlan
  split_ifs with h
  · simp [h]
  · cases c.classify path allow <;> simp [h]

/-- The signals that a plan stands for while a batch is scanned. -/
def signalsOf (plan : WorkspaceLiveRefreshPlan P) : PathSignals P where
  event := ({ plan with sourcePaths := [] } : WorkspaceLiveRefreshPlan P).event
  sourcePaths := plan.sourcePaths

theorem coalesceOptional_eq_merge (current : Option (WorkspaceLiveEvent P))
    (next : WorkspaceLiveEvent P) :
    coalesceOptional current next = current.merge WorkspaceLiveEvent.coalesce (some next) := by
  cases current <;> rfl

/-- A path that demands no rescan adds what it asks for. -/
theorem collect_signalsOf {plan : WorkspaceLiveRefreshPlan P} {path : P}
    (h : ¬c.DemandsRescan allow path) :
    c.collectPathLiveSignal (c.classify path allow) path (signalsOf plan) =
      some (signalsOf (plan.coalesce (c.pathPlan allow path))) := by
  have hevent : ∀ q : WorkspaceLiveRefreshPlan P, q.sourcePaths = [] → q.isEmpty = false →
      coalesceOptional (signalsOf plan).event q.intoEvent = (signalsOf (plan.coalesce q)).event := by
    intro q hq hqempty
    have hsome : some q.intoEvent = q.event := by simp [event, hqempty]
    rw [coalesceOptional_eq_merge, hsome]
    refine (merge_event (by rw [hq]; exact nodup_nil)).trans ?_
    simp [signalsOf, WorkspaceLiveRefreshPlan.coalesce, hq]
  rw [pathPlan, if_neg h]
  cases hsignal : c.classify path allow with
  | ignore => rw [collectPathLiveSignal, coalesce_empty]
  | gitBaseChanged => exact congrArg _ (congrArg₂ _ (hevent { gitBase := true } rfl rfl) rfl)
  | notes => exact congrArg _ (congrArg₂ _ (hevent { notes := true } rfl rfl) rfl)
  | buildContext => exact absurd (Or.inl hsignal) h
  | manifest => simp [collectPathLiveSignal, signalsOf, WorkspaceLiveRefreshPlan.coalesce]
  | source =>
    have hdir : ¬c.isDir (c.normalizePath path) = true := fun hdir => h (Or.inr ⟨hsignal, hdir⟩)
    rw [collectPathLiveSignal, if_neg hdir]
    simp [signalsOf, WorkspaceLiveRefreshPlan.coalesce]

theorem foldlM_collect {paths : List P} {plan : WorkspaceLiveRefreshPlan P}
    (h : ∀ path ∈ paths, ¬c.DemandsRescan allow path) : paths.foldlM
        (fun acc path => c.collectPathLiveSignal (c.classify path allow) path acc)
        (signalsOf plan) = some (signalsOf
        (paths.foldl (fun plan path => plan.coalesce (c.pathPlan allow path)) plan)) := by
  induction paths generalizing plan with
  | nil => rfl
  | cons path paths ih =>
    rw [foldlM_cons, collect_signalsOf (h path mem_cons_self), foldl_cons]
    exact ih fun p hp => h p (mem_cons_of_mem path hp)

/-- A path that demands a rescan ends the scan. -/
theorem foldlM_collect_none {paths : List P} {acc : PathSignals P}
    (h : ∃ path ∈ paths, c.DemandsRescan allow path) : paths.foldlM
      (fun acc path => c.collectPathLiveSignal (c.classify path allow) path acc) acc = none := by
  induction paths generalizing acc with
  | nil => simp at h
  | cons path paths ih =>
    rw [foldlM_cons]
    by_cases hpath : c.DemandsRescan allow path
    · have hnone : c.collectPathLiveSignal (c.classify path allow) path acc = none := by
        rcases hpath with hsignal | ⟨hsignal, hdir⟩
        · rw [hsignal, collectPathLiveSignal]
        · rw [hsignal, collectPathLiveSignal, if_pos hdir]
      rw [hnone]
      rfl
    · have hrest : ∃ p ∈ paths, c.DemandsRescan allow p := by
        obtain ⟨p, hp, hrescan⟩ := h
        rcases mem_cons.mp hp with rfl | hp
        · exact absurd hrescan hpath
        · exact ⟨p, hp, hrescan⟩
      cases c.collectPathLiveSignal (c.classify path allow) path acc with
      | none => rfl
      | some next => exact ih hrest

theorem nodup_batchPlan : (c.batchPlan allow paths).sourcePaths.Nodup := by
  have hfold : ∀ {paths : List P} {plan : WorkspaceLiveRefreshPlan P}, plan.sourcePaths.Nodup →
      (paths.foldl (fun plan path => plan.coalesce (c.pathPlan allow path)) plan).sourcePaths.Nodup := by
    intro paths
    induction paths with
    | nil => exact id
    | cons path paths ih => exact fun h => ih (nodup_foldl_pushUnique h)
  exact hfold nodup_nil

/-- The demands of a batch that are no paths. -/
theorem batchPlan_demands (paths : List P) :
    (c.batchPlan allow paths).rescan = paths.any (fun p => (c.pathPlan allow p).rescan) ∧
      (c.batchPlan allow paths).gitBase = paths.any (fun p => (c.pathPlan allow p).gitBase) ∧
        (c.batchPlan allow paths).notes = paths.any (fun p => (c.pathPlan allow p).notes) := by
  have hfold : ∀ {paths : List P} {plan : WorkspaceLiveRefreshPlan P},
      (paths.foldl (fun plan path => plan.coalesce (c.pathPlan allow path)) plan).rescan =
          (plan.rescan || paths.any fun p => (c.pathPlan allow p).rescan) ∧
        (paths.foldl (fun plan path => plan.coalesce (c.pathPlan allow path)) plan).gitBase =
          (plan.gitBase || paths.any fun p => (c.pathPlan allow p).gitBase) ∧
        (paths.foldl (fun plan path => plan.coalesce (c.pathPlan allow path)) plan).notes =
          (plan.notes || paths.any fun p => (c.pathPlan allow p).notes) := by
    intro paths
    induction paths with
    | nil => simp
    | cons path paths ih =>
      intro plan
      obtain ⟨hrescan, hgit, hnotes⟩ := @ih (plan.coalesce (c.pathPlan allow path))
      simp only [foldl_cons, any_cons, ← Bool.or_assoc]
      exact ⟨hrescan, hgit, hnotes⟩
  simpa [batchPlan] using @hfold paths {}

/-! ## The event of a batch -/

/-- The end of the scan puts the paths into the event. -/
theorem event_signalsOf {plan : WorkspaceLiveRefreshPlan P} (h : plan.sourcePaths.Nodup) :
    (if plan.sourcePaths.isEmpty then (signalsOf plan).event
      else coalesceOptional (signalsOf plan).event (.sourcesChanged plan.sourcePaths)) =
      plan.event := by
  split_ifs with hempty
  · rw [List.isEmpty_iff] at hempty
    cases plan
    subst hempty
    rfl
  · have hsource : some (.sourcesChanged plan.sourcePaths) =
        ({ sourcePaths := plan.sourcePaths } : WorkspaceLiveRefreshPlan P).event := by
      simp [event, isEmpty, intoEvent, Bool.eq_false_iff.mpr hempty]
    have hplan : ({ plan with sourcePaths := [] } : WorkspaceLiveRefreshPlan P).coalesce
        { sourcePaths := plan.sourcePaths } = plan := by
      simp [WorkspaceLiveRefreshPlan.coalesce, foldl_pushUnique_nil h]
    rw [coalesceOptional_eq_merge, hsource]
    exact (@merge_event P _ { plan with sourcePaths := [] } { sourcePaths := plan.sourcePaths } h).trans
      (congrArg event hplan)

/-- The event of a batch. -/
theorem classifyPaths_eq : c.classifyPathsWithGitSignals paths allow =
      if ∃ path ∈ paths, c.DemandsRescan allow path then some .rescanRequired
      else (c.batchPlan allow paths).event := by
  unfold classifyPathsWithGitSignals
  split_ifs with h
  · rw [foldlM_collect_none h]
  · have hnone : ∀ path ∈ paths, ¬c.DemandsRescan allow path :=
      fun path hpath hrescan => h ⟨path, hpath, hrescan⟩
    have hstart : ({} : PathSignals P) = signalsOf {} := rfl
    rw [hstart, foldlM_collect hnone]
    exact event_signalsOf (nodup_batchPlan paths)

/-- The event of a single path. -/
theorem classifyPaths_singleton :
    c.classifyPathsWithGitSignals [path] allow = (c.pathPlan allow path).event := by
  have hplan : c.batchPlan allow [path] = c.pathPlan allow path :=
    empty_coalesce (nodup_pathPlan path)
  rw [classifyPaths_eq, hplan]
  split_ifs with h
  · obtain ⟨p, hp, hrescan⟩ := h
    obtain rfl := mem_singleton.mp hp
    rw [pathPlan, if_pos hrescan]
    rfl
  · rfl

theorem coalesced_eq : c.coalesced paths allow = (c.batchPlan allow paths).event := by
  have hfold : ∀ {paths : List P} {plan : WorkspaceLiveRefreshPlan P},
      paths.foldl
          (fun event path => event.merge WorkspaceLiveEvent.coalesce
            (c.classifyPathsWithGitSignals [path] allow)) plan.event =
        (paths.foldl (fun plan path => plan.coalesce (c.pathPlan allow path)) plan).event := by
    intro paths
    induction paths with
    | nil => exact rfl
    | cons path paths ih =>
      intro plan
      rw [foldl_cons, classifyPaths_singleton, merge_event (nodup_pathPlan path)]
      exact ih
  exact @hfold paths {}

theorem signals_iff : c.Signals allow path ↔
    (c.pathPlan allow path).notes = true ∨ (c.pathPlan allow path).gitBase = true := by
  unfold pathPlan
  split_ifs with h
  · have hnot : ¬c.Signals allow path := by
      rintro (hsignal | hsignal) <;> simp [DemandsRescan, hsignal] at h
    simpa using hnot
  · cases hsignal : c.classify path allow <;> simp [Signals, hsignal]

theorem demands_batchPlan {paths : List P} {path : P} (hpath : path ∈ paths) {d : LiveDemand P}
    (h : (c.pathPlan allow path).Demands d) : (c.batchPlan allow paths).Demands d := by
  have hfold : ∀ {paths : List P} {plan : WorkspaceLiveRefreshPlan P},
      plan.Demands d ∨ path ∈ paths →
        (paths.foldl (fun plan path => plan.coalesce (c.pathPlan allow path)) plan).Demands d := by
    intro paths
    induction paths with
    | nil => exact fun h => h.resolve_right not_mem_nil
    | cons p paths ih =>
      intro plan hd
      rw [mem_cons, ← or_assoc] at hd
      refine @ih (plan.coalesce (c.pathPlan allow p)) (hd.imp_left fun hd => ?_)
      rcases hd with hd | rfl
      · exact demands_coalesce.mpr (Or.inl hd)
      · exact demands_coalesce.mpr (Or.inr h)
  exact hfold (Or.inr hpath)

/-- The event carries what the plan asks for. A rescan stands for the paths. -/
def Carries (event : Option (WorkspaceLiveEvent P)) (plan : WorkspaceLiveRefreshPlan P) : Prop :=
  plan.isEmpty = false → ∃ e, event = some e ∧
    (plan.notes = true → (fromEvent e).notes = true) ∧
    (plan.gitBase = true → (fromEvent e).gitBase = true) ∧
    (plan.rescan = true → (fromEvent e).rescan = true) ∧
    ((fromEvent e).rescan = true ∨ ∀ p ∈ plan.sourcePaths, p ∈ (fromEvent e).sourcePaths)

theorem carries_coalesced {paths : List P} {path : P} (hpath : path ∈ paths) :
    Carries (c.coalesced paths allow) (c.pathPlan allow path) := by
  intro hplan
  have hdemands := fun d => @demands_batchPlan P _ c allow paths path hpath d
  have hnotes : (c.pathPlan allow path).notes = true → (c.batchPlan allow paths).notes = true := by
    intro h
    rw [(batchPlan_demands paths).2.2, any_eq_true]
    exact ⟨path, hpath, h⟩
  have hempty : (c.batchPlan allow paths).isEmpty = false := by
    refine Bool.eq_false_iff.mpr fun hempty => ?_
    have hnot : ∀ d, ¬(c.pathPlan allow path).Demands d :=
      fun d h => not_demands_of_isEmpty hempty d (hdemands d h)
    have hpaths : (c.pathPlan allow path).sourcePaths = [] :=
      eq_nil_iff_forall_not_mem.mpr fun p => hnot (.path p)
    have hnotes' : (c.pathPlan allow path).notes = false := Bool.eq_false_iff.mpr fun h => by
      have hbatch := hnotes h
      rw [eq_of_isEmpty hempty] at hbatch
      cases hbatch
    have hrescan : (c.pathPlan allow path).rescan = false := Bool.eq_false_iff.mpr (hnot .rescan)
    have hgit : (c.pathPlan allow path).gitBase = false := Bool.eq_false_iff.mpr (hnot .gitBase)
    simp [isEmpty, hpaths, hnotes', hrescan, hgit] at hplan
  rw [coalesced_eq, event, hempty]
  refine ⟨_, rfl, ?_⟩
  rw [fromEvent_intoEvent hempty]
  split_ifs with hrescan
  · exact ⟨hnotes, hdemands .gitBase, fun _ => hrescan, Or.inl hrescan⟩
  · exact ⟨hnotes, hdemands .gitBase, hdemands .rescan, Or.inr fun p => hdemands (.path p)⟩

/-- A batch has the event of its paths one by one, in every order, exactly when no path demands
a rescan or none is a note or a file of the git base. -/
theorem classifyPaths_eq_coalesced_iff (paths : List P) : (∀ paths', paths'.Perm paths →
      c.classifyPathsWithGitSignals paths' allow = c.coalesced paths' allow ∧
        ∀ path ∈ paths', Carries (c.classifyPathsWithGitSignals paths' allow)
          (c.pathPlan allow path)) ↔
      ¬((∃ path ∈ paths, c.DemandsRescan allow path) ∧ ∃ path ∈ paths, c.Signals allow path) := by
  have hbatch : ∀ paths : List P,
      c.classifyPathsWithGitSignals paths allow = c.coalesced paths allow ↔
        ¬((∃ path ∈ paths, c.DemandsRescan allow path) ∧ ∃ path ∈ paths, c.Signals allow path) := by
    intro paths
    rw [classifyPaths_eq, coalesced_eq]
    split_ifs with h
    · obtain ⟨hrescan, hgit, hnotes⟩ := @batchPlan_demands P _ c allow paths
      have hbatch : (c.batchPlan allow paths).rescan = true := by
        obtain ⟨path, hpath, hdemands⟩ := h
        rw [hrescan, any_eq_true]
        exact ⟨path, hpath, by rw [rescan_pathPlan]; exact decide_eq_true hdemands⟩
      have hsignals : (∃ path ∈ paths, c.Signals allow path) ↔
          (c.batchPlan allow paths).notes = true ∨ (c.batchPlan allow paths).gitBase = true := by
        simp only [signals_iff, hgit, hnotes, any_eq_true, ← exists_or, ← and_or_left]
      rw [hsignals]
      simp only [h, true_and]
      generalize c.batchPlan allow paths = plan at hbatch
      obtain ⟨rescan, sourcePaths, gitBase, notes⟩ := plan
      obtain rfl : rescan = true := hbatch
      cases gitBase <;> cases notes <;> simp [event, isEmpty, intoEvent]
    · simp [h]
  constructor
  · exact fun h => (hbatch paths).mp (h paths (List.Perm.refl paths)).1
  · intro h paths' hperm
    have heq : c.classifyPathsWithGitSignals paths' allow = c.coalesced paths' allow := by
      refine (hbatch paths').mpr ?_
      simpa only [hperm.mem_iff] using h
    exact ⟨heq, fun path hpath => heq ▸ carries_coalesced hpath⟩

/-- A notes file and the ignore rules of a repository. -/
def ignoreRulesAndNotes : PathClassifier String where
  classify path _ := if path = "/repo/.gitignore" then .buildContext else .notes
  normalizePath path := path
  isDir _ := false

/-- The ignore rules demand a rescan, and the notes of the batch are not read again. -/
theorem notes_lost_with_rescan : ignoreRulesAndNotes.classifyPathsWithGitSignals
        ["/repo/.code-moniker/notes.toml", "/repo/.gitignore"] true = some .rescanRequired ∧
      ignoreRulesAndNotes.coalesced
        ["/repo/.code-moniker/notes.toml", "/repo/.gitignore"] true = some .rescanAndNotes ∧
        ¬Carries (ignoreRulesAndNotes.classifyPathsWithGitSignals
          ["/repo/.code-moniker/notes.toml", "/repo/.gitignore"] true)
          (ignoreRulesAndNotes.pathPlan true "/repo/.code-moniker/notes.toml") := by
  refine ⟨rfl, rfl, fun h => ?_⟩
  obtain ⟨e, he, hnotes, -⟩ := h rfl
  obtain rfl : .rescanRequired = e := Option.some.inj he
  cases hnotes rfl

end PathClassifier

end CodeMoniker
