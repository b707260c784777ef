import CodeMoniker.DaemonLive

/-!
# The staleness of the daemon

What is owed is pending in every state of a run (`Inv.owed`), as long as the full build that
reconciles a newly installed watcher succeeds : when it fails, the plan that was taken off the
channel is dropped with it (`staleness_inexact`). A successful `workspace.refresh` leaves the pending
plan as it is, so the workspace is fresh after it if and only if nothing was pending or waiting
before (`staleness_exact`).
-/

set_option linter.unusedSectionVars false

namespace CodeMoniker

open List WorkspaceLiveRefreshPlan WorkspaceDaemon
open Query (QueryError)

/-- The call refreshes at once what it drains. -/
def DaemonCall.Refreshes {P : Type} : DaemonCall P → Prop
  | .query .text _ | .query .status _ => False
  | .query _ consistency => consistency ≠ .staleOk
  | .sourceSet => True
  | _ => False

namespace WorkspaceDaemon

variable {P C : Type} [DecidableEq P]

/-- The registrations that have not been installed are of different epochs up to the current
one. -/
structure Epochs (s : WorkspaceDaemon P C) : Prop where
  nodup : (s.watcherUpdates.map (·.1) ++ s.registrations).Nodup
  le : ∀ epoch ∈ s.watcherUpdates.map (·.1) ++ s.registrations, epoch ≤ s.watcherEpoch

/-- What is owed is pending. -/
structure Inv (s : WorkspaceDaemon P C) : Prop extends Epochs s where
  owed : ∀ d ∈ s.owed, s.registry.pending.Demands d

/-- What is owed is pending, or in the plan. -/
structure Owes (s : WorkspaceDaemon P C) (plan : WorkspaceLiveRefreshPlan P) : Prop
    extends Epochs s where
  owed : ∀ d ∈ s.owed, s.registry.pending.Demands d ∨ plan.Demands d

variable {s s' : WorkspaceDaemon P C} {plan : WorkspaceLiveRefreshPlan P} {o : Outside P C}

theorem Inv.owes (h : Inv s) (plan : WorkspaceLiveRefreshPlan P) : Owes s plan :=
  ⟨h.toEpochs, fun d hd => Or.inl (h.owed d hd)⟩

theorem Owes.inv (h : Owes s plan) (hempty : plan.isEmpty = true) : Inv s :=
  ⟨h.toEpochs, fun d hd => (h.owed d hd).resolve_right (not_demands_of_isEmpty hempty d)⟩

theorem Epochs.of_eq (h : Epochs s) (hupdates : s'.watcherUpdates = s.watcherUpdates)
    (hregistrations : s'.registrations = s.registrations)
    (hepoch : s.watcherEpoch ≤ s'.watcherEpoch) : Epochs s' where
  nodup := by
    rw [hupdates, hregistrations]
    exact h.nodup
  le epoch hmem := by
    rw [hupdates, hregistrations] at hmem
    exact Nat.le_trans (h.le epoch hmem) hepoch

theorem Inv.andThen {answer : Answer P C} {next : WorkspaceDaemon P C → Answer P C}
    (h : Inv answer.1) (hnext : ∀ s, Inv s → Inv (next s).1) : Inv (answer.andThen next).1 := by
  unfold Answer.andThen
  cases answer.2 with
  | ok => exact hnext _ h
  | error => exact h

/-! ## Builds and restarts -/

theorem execute_pending (registry : WorkspaceState P C) (result : Except WorkspaceFailure C) :
    (registry.execute result).1.pending = registry.pending := by
  cases result <;> rfl

theorem Inv.refreshFull (h : Inv s) {result : Except WorkspaceFailure C} :
    Inv (s.refreshFull result).1 := by
  cases result with
  | ok => exact ⟨h.toEpochs.of_eq rfl rfl (Nat.le_refl _), fun _ hd => nomatch hd⟩
  | error => exact ⟨h.toEpochs.of_eq rfl rfl (Nat.le_refl _), h.owed⟩

/-- A full build that succeeds covers what is owed. -/
theorem Epochs.refreshFull (h : Epochs s) (c : C) : Inv (s.refreshFull (.ok c)).1 :=
  ⟨h.of_eq rfl rfl (Nat.le_refl _), fun _ hd => nomatch hd⟩

theorem Inv.execute (h : Inv s) {result : Except WorkspaceFailure C} :
    Inv (s.execute result).1 := by
  refine ⟨h.toEpochs.of_eq rfl rfl (Nat.le_refl _), fun d hd => ?_⟩
  rw [WorkspaceDaemon.execute, execute_pending]
  exact h.owed d hd

theorem demands_markStale {d : LiveDemand P} : (s.markStale plan).registry.pending.Demands d ↔
      s.registry.pending.Demands d ∨ plan.Demands d := by
  unfold markStale WorkspaceState.markStale
  simp only
  split_ifs with hempty
  · refine ⟨Or.inl, fun h => h.resolve_right fun hplan => ?_⟩
    exact not_demands_of_isEmpty hempty d (demands_withoutNotes.mpr hplan)
  · rw [WorkspaceState.coalescePending, demands_coalesce, demands_withoutNotes]

theorem Owes.markStale (h : Owes s plan) : Inv (s.markStale plan) :=
  ⟨h.toEpochs.of_eq rfl rfl (Nat.le_refl _), fun d hd => demands_markStale.mpr (h.owed d hd)⟩

theorem Inv.registerLiveWatcher (h : Inv s) {spawned : Bool} :
    Inv (s.registerLiveWatcher spawned).1 := by
  unfold WorkspaceDaemon.registerLiveWatcher
  split_ifs
  · refine ⟨⟨?_, fun epoch hmem => ?_⟩, h.owed⟩
    · simp only [← append_assoc]
      refine nodup_append.mpr ⟨h.nodup, nodup_singleton _, fun a ha b hb heq => ?_⟩
      have hle := h.le a ha
      obtain rfl := mem_singleton.mp hb
      omega
    · simp only [← append_assoc] at hmem
      rcases mem_append.mp hmem with hmem | hmem
      · exact Nat.le_trans (h.le epoch hmem) (Nat.le_succ _)
      · exact Nat.le_of_eq (mem_singleton.mp hmem)
  · exact ⟨h.toEpochs.of_eq rfl rfl (Nat.le_refl _), h.owed⟩

theorem Inv.restartLiveWatcher (h : Inv s) {restart : Restart} :
    Inv (s.restartLiveWatcher restart).1 := by
  unfold WorkspaceDaemon.restartLiveWatcher
  cases s.watcher with
  | none => exact h.registerLiveWatcher
  | some watcher =>
    simp only
    split_ifs
    · exact ⟨h.toEpochs.of_eq rfl rfl (Nat.le_refl _), h.owed⟩
    · exact h.registerLiveWatcher

/-- What the run of a plan does not serve is pending after it. -/
theorem Epochs.finishPlan (h : Epochs s) {run : WorkspaceState P C × LiveReport P}
    {restart : Restart} (call : LiveCall P C)
    (howed : ∀ d ∈ s.owed, ¬ WorkspaceState.Serves (call, run.2) d → run.1.pending.Demands d) :
    Inv (s.finishPlan run restart).1 := by
  obtain ⟨registry, report⟩ := run
  unfold WorkspaceDaemon.finishPlan
  simp only
  cases hresult : workspaceTransitionResult report.transition with
  | error error =>
    refine ⟨h.of_eq rfl rfl (Nat.le_refl _), fun d hd => howed d hd ?_⟩
    rintro ⟨served, generation, -, -, hready⟩
    rw [hready] at hresult
    cases hresult
  | ok =>
    have hkept : Inv { s with
        registry
        owed := s.owed.filter (· ∉ (report.plan.getD {}).demands) } := by
      refine ⟨h.of_eq rfl rfl (Nat.le_refl _), fun d hd => ?_⟩
      obtain ⟨hd, hunserved⟩ := mem_filter.mp hd
      refine howed d hd ?_
      rintro ⟨served, generation, hplan, hdemands, -⟩
      refine of_decide_eq_true hunserved ?_
      have hgetD : report.plan.getD {} = served := by
        rw [show report.plan = some served from hplan]
        rfl
      rw [hgetD]
      exact mem_demands.mpr hdemands
    simp only
    split_ifs
    · exact hkept.restartLiveWatcher
    · exact hkept

theorem Owes.applyLivePlan (h : Owes s plan) {ports : LivePorts P C} {restart : Restart} :
    Inv (s.applyLivePlan plan ports restart).1 := by
  refine h.toEpochs.finishPlan (.applyPlan "" ports plan) fun d hd hserves => ?_
  rcases h.owed d hd with hpending | hplan
  · exact WorkspaceState.demands_run_of_pending hpending
  · exact WorkspaceState.demands_run_of_plan _ hplan hserves

theorem Inv.refreshStale (h : Inv s) {ports : LivePorts P C} {restart : Restart} :
    Inv (s.refreshStale ports restart).1 := by
  refine h.toEpochs.finishPlan (.refreshStale "" ports) fun d hd hserves => ?_
  have hpending := h.owed d hd
  rcases s.registry.refreshStale_cases "daemon-refresh-stale" ports with
    ⟨hempty, -⟩ | hrun
  · exact absurd hpending (not_demands_of_isEmpty hempty d)
  · rw [hrun] at hserves ⊢
    exact WorkspaceState.demands_run_of_plan _ hpending hserves

theorem Owes.applyLivePlanForPolicy (h : Owes s plan) :
    Inv (s.applyLivePlanForPolicy plan o).1 := by
  unfold WorkspaceDaemon.applyLivePlanForPolicy
  split_ifs with hempty
  · exact h.inv hempty
  · cases s.policy with
    | onDemand => exact h.markStale
    | auto => exact h.applyLivePlan

/-! ## Draining -/

variable {epoch : ℕ}

theorem foldl_installUpdate_of_ne : ∀ {updates : List (ℕ × Except String LiveWorkspaceWatcher)}
      {live : Option LiveWorkspaceWatcher × Option String × Bool},
      (∀ update ∈ updates, update.1 ≠ epoch) → updates.foldl (installUpdate epoch) live = live
  | [], _, _ => rfl
  | update :: updates, live, h => by
    obtain ⟨hne, hrest⟩ := forall_mem_cons.mp h
    rw [foldl_cons, installUpdate, if_pos hne]
    exact foldl_installUpdate_of_ne hrest

/-- A registration ends once, so a watcher that is installed has not failed since. -/
theorem failure_of_installed {watcher : Option LiveWorkspaceWatcher}
    {failure : Option String} : ∀ {updates : List (ℕ × Except String LiveWorkspaceWatcher)},
    (updates.map (·.1)).Nodup →
    (updates.foldl (installUpdate epoch) (watcher, failure, false)).2.2 = true →
    (updates.foldl (installUpdate epoch) (watcher, failure, false)).2.1 = none
  | [], _, h => nomatch h
  | update :: updates, hnodup, h => by
    obtain ⟨hnotin, hrest⟩ := nodup_cons.mp hnodup
    rw [foldl_cons, installUpdate] at h ⊢
    by_cases he : update.1 ≠ epoch
    · rw [if_pos he] at h ⊢
      exact failure_of_installed hrest h
    · rw [if_neg he] at h ⊢
      have hne : ∀ other ∈ updates, other.1 ≠ epoch := fun other hmem heq => by
        exact hnotin (mem_map.mpr ⟨other, hmem, heq.trans (not_not.mp he).symm⟩)
      rw [foldl_installUpdate_of_ne hne] at h ⊢
      cases hresult : update.2 with
      | ok watcher => rfl
      | error message =>
        rw [hresult] at h
        cases h

theorem Epochs.installPendingLiveWatcher (h : Epochs s) : Epochs s.installPendingLiveWatcher.1 where
  nodup := h.nodup.sublist (sublist_append_right _ _)
  le epoch hmem := h.le epoch (mem_append_right _ hmem)

theorem Epochs.no_failure (h : Epochs s) (hinstalled : s.installPendingLiveWatcher.2 = true) :
    s.installPendingLiveWatcher.1.watcherFailure = none :=
  failure_of_installed (h.nodup.sublist (sublist_append_left _ _)) hinstalled

/-- The plan of the events has their demands. -/
theorem demands_takenPlan {d : LiveDemand P} :
    s.takenPlan.Demands d ↔ ∃ event ∈ s.rx, (fromEvent event).Demands d := by
  have hfold : ∀ (events : List (WorkspaceLiveEvent P)) (plan : WorkspaceLiveRefreshPlan P),
      (events.foldl (fun plan event => plan.coalesce (fromEvent event)) plan).Demands d ↔
        plan.Demands d ∨ ∃ event ∈ events, (fromEvent event).Demands d := by
    intro events
    induction events with
    | nil => simp
    | cons event events ih =>
      intro plan
      rw [foldl_cons, ih, demands_coalesce, exists_mem_cons_iff, or_assoc]
  rw [takenPlan, hfold]
  exact or_iff_right (not_demands_of_isEmpty rfl d)

theorem Owes.drainPlan (h : Owes s plan) {deferAutoRefresh : Bool} :
    Inv (s.drainPlan plan deferAutoRefresh o).1 := by
  unfold WorkspaceDaemon.drainPlan
  split_ifs with hempty
  · exact h.inv hempty
  · exact h.markStale
  · exact h.applyLivePlanForPolicy

theorem Inv.drainStale (h : Inv s) {deferAutoRefresh : Bool} :
    Inv (s.drainStale deferAutoRefresh o).1 := by
  unfold WorkspaceDaemon.drainStale
  split_ifs
  · exact h.refreshStale
  · exact h

/-- A drain keeps what is owed, when the full build that reconciles a new watcher succeeds. -/
theorem Inv.drainLiveEvents (h : Inv s) {deferAutoRefresh : Bool}
    (hreconcile : deferAutoRefresh = false → s.installPendingLiveWatcher.2 = true →
      ∃ c, o.reconcile = .ok c) : Inv (s.drainLiveEvents deferAutoRefresh o).1 := by
  have hepochs := h.toEpochs.installPendingLiveWatcher
  have hfailure := h.toEpochs.no_failure
  have howed : s.installPendingLiveWatcher.1.owed =
      if s.installPendingLiveWatcher.2 then .rescan :: s.owed else s.owed := rfl
  have hpending : s.installPendingLiveWatcher.1.registry = s.registry := rfl
  unfold WorkspaceDaemon.drainLiveEvents
  generalize s.installPendingLiveWatcher = installed at *
  obtain ⟨t, watcherInstalled⟩ := installed
  simp only at hepochs hfailure howed hpending hreconcile ⊢
  cases ht : t.watcherFailure with
  | some message =>
    simp only
    cases watcherInstalled with
    | true =>
      rw [hfailure rfl] at ht
      cases ht
    | false =>
      refine ⟨hepochs, fun d hd => ?_⟩
      rw [howed] at hd
      rw [hpending]
      exact h.owed d hd
  | none =>
    simp only
    have htaken : Epochs t.takeEvents := hepochs.of_eq rfl rfl (Nat.le_refl _)
    have hmem : ∀ d ∈ t.takeEvents.owed, d = .rescan ∧ watcherInstalled = true ∨
        t.takeEvents.registry.pending.Demands d ∨ t.takenPlan.Demands d := by
      intro d hd
      rcases mem_append.mp hd with hd | hd
      · rw [howed] at hd
        split_ifs at hd with hinstalled
        · rcases mem_cons.mp hd with rfl | hd
          · exact Or.inl ⟨rfl, hinstalled⟩
          · exact Or.inr (Or.inl (hpending ▸ h.owed d hd))
        · exact Or.inr (Or.inl (hpending ▸ h.owed d hd))
      · obtain ⟨event, hevent, hd⟩ := mem_flatMap.mp hd
        exact Or.inr (Or.inr (demands_takenPlan.mpr ⟨event, hevent, mem_demands.mp hd⟩))
    refine Inv.andThen ?_ fun u hu => hu.drainStale
    split_ifs with hinstalled hdefer
    · -- The rescan of the watcher is merged into the plan.
      refine Owes.drainPlan ⟨htaken, fun d hd => ?_⟩
      rw [demands_coalesce]
      rcases hmem d hd with ⟨rfl, -⟩ | hpending | hplan
      · exact Or.inr (Or.inr rfl)
      · exact Or.inl hpending
      · exact Or.inr (Or.inl hplan)
    · obtain ⟨c, hc⟩ := hreconcile (Bool.eq_false_iff.mpr hdefer) hinstalled
      rw [hc]
      exact (htaken.refreshFull c).andThen fun u hu => (hu.owes _).drainPlan
    · refine Owes.drainPlan ⟨htaken, fun d hd => ?_⟩
      exact (hmem d hd).resolve_left fun hboth => hinstalled hboth.2

/-! ## Requests -/

/-- When a call that refreshes at once installs a watcher, its full build succeeds. -/
def Careful (s : WorkspaceDaemon P C) (call : DaemonCall P) (o : Outside P C) : Prop :=
  call.Refreshes → s.installPendingLiveWatcher.2 = true → ∃ c, o.reconcile = .ok c

theorem Inv.changeOverlay (h : Inv s) {kind : QueryKind} : Inv (s.changeOverlay kind o).1 := by
  unfold WorkspaceDaemon.changeOverlay
  split
  · exact h.execute
  · split
    · exact h
    · split_ifs
      · exact h.execute
      · exact h
    · exact h
  · exact h

theorem Inv.refreshForQuery (h : Inv s) {kind : QueryKind} {consistency : Consistency} :
    Inv (s.refreshForQuery kind consistency o).1 := by
  unfold WorkspaceDaemon.refreshForQuery
  split_ifs
  · exact h.refreshStale
  · exact h

theorem refuseStale_fst {consistency : Consistency} : (s.refuseStale consistency).1 = s := by
  unfold refuseStale
  split_ifs <;> rfl

section

variable (h : Inv s)

include h

variable {kind : QueryKind}

theorem Inv.loadedQuery {consistency : Consistency} : Inv (s.loadedQuery kind consistency o).1 := by
  unfold WorkspaceDaemon.loadedQuery
  split_ifs
  · exact h
  · exact h.changeOverlay.andThen fun t ht => by rwa [refuseStale_fst]

theorem Inv.handleQuery {consistency : Consistency}
    (hcareful : Careful s (.query kind consistency) o) :
    Inv (s.handleQuery kind consistency o).1 := by
  have hdrained : (consistency ≠ .staleOk →
      (DaemonCall.query kind consistency : DaemonCall P).Refreshes) →
      Inv (s.drainLiveEvents (consistency = .staleOk) o).1 := fun hrefreshes =>
    h.drainLiveEvents fun hdefer => hcareful (hrefreshes (of_decide_eq_false hdefer))
  have hloaded : ∀ t : WorkspaceDaemon P C, Inv t →
      Inv ((t.refreshForQuery kind consistency o).andThen (·.loadedQuery kind consistency o)).1 :=
    fun t ht => ht.refreshForQuery.andThen fun u hu => hu.loadedQuery
  cases kind with
  | text => exact h
  | status =>
    have hstatus : Inv (s.drainLiveEvents true o).1 := h.drainLiveEvents nofun
    unfold WorkspaceDaemon.handleQuery
    cases hresult : s.drainLiveEvents true o with
    | mk t result =>
      rw [hresult] at hstatus
      cases result with
      | ok => exact hstatus
      | error error =>
        simp only
        split_ifs
        · exact hstatus
        · exact hstatus
  | describe => exact hdrained id
  | review => exact (hdrained id).andThen hloaded
  | context => exact (hdrained id).andThen hloaded
  | other => exact (hdrained id).andThen hloaded

theorem Inv.handleWorkspaceRefresh : Inv (s.handleWorkspaceRefresh o).1 := by
  have hdrained : Inv (s.drainLiveEvents true o).1 := h.drainLiveEvents nofun
  unfold WorkspaceDaemon.handleWorkspaceRefresh
  cases hresult : s.drainLiveEvents true o with
  | mk t result =>
    rw [hresult] at hdrained
    cases result with
    | ok => exact hdrained.refreshFull
    | error error =>
      simp only
      split_ifs
      · exact hdrained.refreshFull.andThen fun u hu => hu.restartLiveWatcher
      · exact hdrained

theorem Inv.handleSourceSet (hcareful : Careful s .sourceSet o) : Inv (s.handleSourceSet o).1 := by
  refine (h.drainLiveEvents fun _ => hcareful trivial).andThen fun t ht => ?_
  split
  · exact ht
  · exact ht
  · exact ht.refreshFull
  · exact ht.execute

theorem Inv.deliver {result : Except String LiveWorkspaceWatcher} :
    Inv (s.deliver epoch result) := by
  unfold WorkspaceDaemon.deliver
  split_ifs with hmem
  · have hperm : ((s.watcherUpdates ++ [(epoch, result)]).map (·.1) ++
        s.registrations.erase epoch).Perm (s.watcherUpdates.map (·.1) ++ s.registrations) := by
      rw [map_append, append_assoc]
      exact (perm_cons_erase hmem).symm.append_left _
    exact ⟨⟨hperm.nodup_iff.mpr h.nodup, fun e he => h.le e (hperm.mem_iff.mp he)⟩, h.owed⟩
  · exact h

theorem Inv.registerInitialLiveWatcher {cancelled : Bool} :
    Inv (s.registerInitialLiveWatcher cancelled).1 := by
  unfold WorkspaceDaemon.registerInitialLiveWatcher
  split_ifs
  · exact h
  · exact ⟨h.toEpochs.of_eq rfl rfl (Nat.le_succ _), h.owed⟩

theorem Inv.preload {cancelled : Bool} : Inv (s.preload cancelled o).1 := by
  unfold WorkspaceDaemon.preload
  split_ifs with hempty
  · exact h.refreshFull.andThen fun t ht => ht.registerInitialLiveWatcher
  · exact h

theorem Inv.installInitialLiveWatcher {watcher : LiveWorkspaceWatcher} :
    Inv (s.installInitialLiveWatcher epoch watcher) := by
  unfold WorkspaceDaemon.installInitialLiveWatcher
  split_ifs
  · exact h
  · refine Owes.markStale ⟨h.toEpochs.of_eq rfl rfl (Nat.le_refl _), fun d hd => ?_⟩
    rcases mem_cons.mp hd with rfl | hd
    · exact Or.inr rfl
    · exact Or.inl (h.owed d hd)

theorem Inv.recordLiveWatcherFailure {message : String} :
    Inv (s.recordLiveWatcherFailure epoch message) := by
  unfold WorkspaceDaemon.recordLiveWatcherFailure
  split_ifs
  · exact (h.owes _).markStale
  · exact ⟨h.toEpochs.of_eq rfl rfl (Nat.le_refl _), h.owed⟩

/-- A careful call keeps what is owed. -/
theorem Inv.step {call : DaemonCall P} (hcareful : Careful s call o) : Inv (s.step call o).1 := by
  cases call with
  | send event => exact ⟨h.toEpochs.of_eq rfl rfl (Nat.le_refl _), h.owed⟩
  | deliver epoch result => exact h.deliver
  | query kind consistency => exact h.handleQuery hcareful
  | workspaceRefresh => exact h.handleWorkspaceRefresh
  | sourceSet => exact h.handleSourceSet hcareful
  | preload cancelled => exact h.preload
  | installInitial epoch watcher => exact h.installInitialLiveWatcher
  | recordFailure epoch message => exact h.recordLiveWatcherFailure

end

theorem inv_of_reachable {policy : DaemonLiveRefreshPolicy} (h : Reachable policy Careful s) :
    Inv s := by
  induction h with
  | new => exact ⟨⟨nodup_nil, fun _ h => (nomatch h)⟩, fun _ h => (nomatch h)⟩
  | step _ hcareful ih => exact ih.step hcareful

/-! ## A full refresh -/

theorem isStale_iff : s.isStale = true ↔ ∃ d, s.registry.pending.Demands d := by
  simp only [isStale, Bool.or_eq_true, Bool.not_eq_true', isEmpty_eq_false_iff_exists_mem]
  constructor
  · rintro ((hrescan | ⟨path, hpath⟩) | hgit)
    · exact ⟨.rescan, hrescan⟩
    · exact ⟨.path path, hpath⟩
    · exact ⟨.gitBase, hgit⟩
  · rintro ⟨path | _ | _, hd⟩
    · exact Or.inl (Or.inr ⟨path, hd⟩)
    · exact Or.inl (Or.inl hd)
    · exact Or.inr hd

/-- Nothing is pending, no event asks for anything, and no watcher waits. With a watcher that has
failed, no event is taken. -/
structure Unburdened (s : WorkspaceDaemon P C) : Prop where
  pending : s.isStale = false
  waiting : s.installPendingLiveWatcher.1.watcherFailure = none →
    s.installPendingLiveWatcher.2 = false ∧
      ∀ event ∈ s.rx, ∀ d, ¬ (fromEvent event).Demands d

/-- The workspace is not stale, and a query for the current one is not refused as stale, but
answered unless the watcher has failed. -/
structure Fresh (s : WorkspaceDaemon P C) : Prop where
  fresh : s.isStale = false
  accepted : ∀ kind (o : Outside P C), o.git ≠ .error workspaceStale →
    (s.handleQuery kind .current o).2 ≠ .error workspaceStale
  answered : s.watcherFailure = none → ∀ o : Outside P C,
    (s.handleQuery .other .current o).2 = .ok ()

/-- Nothing is pending or waits, and there is a snapshot. -/
structure Quiet (s : WorkspaceDaemon P C) : Prop where
  fresh : s.isStale = false
  updates : s.watcherUpdates = []
  events : s.watcherFailure = none → s.rx = []
  snapshot : s.registry.snapshot.isNone = false

theorem Quiet.drainLiveEvents (h : Quiet s) {deferAutoRefresh : Bool} :
    s.drainLiveEvents deferAutoRefresh o =
      (s, s.watcherFailure.elim (.ok ()) fun message => .error (liveWatcherFailed message)) := by
  have hinstall : s.installPendingLiveWatcher = (s, false) := by
    simp only [installPendingLiveWatcher, h.updates, foldl_nil]
    obtain ⟨_, _, _, _, _, _, _, _, _⟩ := s
    obtain rfl := h.updates
    rfl
  unfold WorkspaceDaemon.drainLiveEvents
  rw [hinstall]
  cases hfailure : s.watcherFailure with
  | some message => simp only [hfailure, Option.elim_some]
  | none =>
    have htake : s.takeEvents = s := by
      have hrx := h.events hfailure
      simp only [takeEvents, hrx, flatMap_nil, append_nil]
      obtain ⟨_, _, _, _, _, _, _, _, _⟩ := s
      obtain rfl := hrx
      rfl
    have hplan : s.takenPlan = {} := by rw [takenPlan, h.events hfailure, foldl_nil]
    simp only [hfailure, htake, hplan, Option.elim_none]
    simp [drainPlan, WorkspaceLiveRefreshPlan.isEmpty, Answer.andThen, drainStale, h.fresh]

variable {result : Except WorkspaceFailure C}

/-- The error of a build is not the one of a stale workspace. -/
theorem execute_ne : (s.execute result).2 ≠ .error workspaceStale := by
  cases result with
  | ok c => nofun
  | error failure =>
    intro heq
    have hcode : "workspace_refresh_failed" = "workspace_stale" :=
      congrArg QueryError.code (Except.error.inj heq)
    exact absurd hcode (by decide)

theorem isStale_execute : (s.execute result).1.isStale = s.isStale := by
  unfold execute isStale
  rw [execute_pending]

/-- An overlay does not make the workspace stale. -/
theorem changeOverlay_spec {kind : QueryKind} (hgit : o.git ≠ .error workspaceStale) :
    (s.changeOverlay kind o).2 ≠ .error workspaceStale ∧
      (s.changeOverlay kind o).1.isStale = s.isStale := by
  unfold changeOverlay
  split
  · exact ⟨execute_ne, isStale_execute⟩
  · cases hanswer : o.git with
    | error error =>
      rw [hanswer] at hgit
      exact ⟨fun heq => hgit (congrArg _ (Except.error.inj heq)), rfl⟩
    | ok failure =>
      cases failure with
      | some => exact ⟨nofun, rfl⟩
      | none =>
        simp only
        split_ifs
        · exact ⟨nofun, isStale_execute⟩
        · exact ⟨nofun, rfl⟩
  · exact ⟨nofun, rfl⟩

theorem Quiet.loadedQuery (h : Quiet s) {kind : QueryKind} (hgit : o.git ≠ .error workspaceStale) :
    (s.loadedQuery kind .current o).2 ≠ .error workspaceStale := by
  obtain ⟨hresult, hstale⟩ := @changeOverlay_spec P C _ s o kind hgit
  unfold WorkspaceDaemon.loadedQuery
  rw [h.snapshot]
  simp only [Bool.false_eq_true, if_false]
  generalize s.changeOverlay kind o = overlay at hresult hstale ⊢
  obtain ⟨t, result⟩ := overlay
  cases result with
  | error error => exact hresult
  | ok =>
    simp only [Answer.andThen, refuseStale, show t.isStale = false from
      hstale.trans h.fresh, Bool.and_false, Bool.false_eq_true, if_false]
    split_ifs with hsnapshot
    · intro heq
      have hcode : "workspace_loading" = "workspace_stale" :=
        congrArg QueryError.code (Except.error.inj heq)
      exact absurd hcode (by decide)
    · nofun

theorem Quiet.refreshForQuery (h : Quiet s) {kind : QueryKind} {consistency : Consistency} :
    s.refreshForQuery kind consistency o = (s, .ok ()) := by
  simp only [WorkspaceDaemon.refreshForQuery, h.fresh, Bool.and_false, Bool.false_eq_true, if_false]

theorem liveWatcherFailed_ne {message : String} : liveWatcherFailed message ≠ workspaceStale := by
  intro heq
  have hcode : "live_watcher_failed" = "workspace_stale" := congrArg QueryError.code heq
  exact absurd hcode (by decide)

theorem Quiet.isFresh (h : Quiet s) : Fresh s where
  fresh := h.fresh
  accepted kind o hgit := by
    have hdrained : ∀ defer, (s.drainLiveEvents defer o).2 ≠ .error workspaceStale := by
      intro defer
      rw [h.drainLiveEvents]
      cases s.watcherFailure with
      | none => nofun
      | some message => exact fun heq => liveWatcherFailed_ne (Except.error.inj heq)
    have hloaded : ∀ kind, ((s.drainLiveEvents (Consistency.current = .staleOk) o).andThen fun s =>
        (s.refreshForQuery kind .current o).andThen (·.loadedQuery kind .current o)).2 ≠
          .error workspaceStale := by
      intro kind
      rw [h.drainLiveEvents]
      cases s.watcherFailure with
      | some message => exact fun heq => liveWatcherFailed_ne (Except.error.inj heq)
      | none =>
        simp only [Option.elim_none, Answer.andThen, h.refreshForQuery]
        exact h.loadedQuery hgit
    cases kind with
    | text => nofun
    | status =>
      unfold handleQuery
      rw [h.drainLiveEvents]
      cases s.watcherFailure with
      | none => nofun
      | some message => simp [liveWatcherFailed]
    | describe => exact hdrained _
    | review => exact hloaded _
    | context => exact hloaded _
    | other => exact hloaded _
  answered hfailure o := by
    have hdrained : s.drainLiveEvents (Consistency.current = .staleOk) o = (s, .ok ()) := by
      rw [h.drainLiveEvents, hfailure]
      rfl
    have hrefuse : s.refuseStale .current = (s, .ok ()) := by
      simp only [refuseStale, h.fresh, h.snapshot, Bool.and_false, Bool.false_eq_true, if_false]
    have hloaded : s.loadedQuery .other .current o = (s, .ok ()) := by
      simp only [WorkspaceDaemon.loadedQuery, h.snapshot, Bool.false_eq_true, if_false]
      exact hrefuse
    unfold WorkspaceDaemon.handleQuery
    simp only [hdrained, Answer.andThen, h.refreshForQuery, hloaded]

/-- A drain that does not refresh leaves a plan for what it took pending. -/
theorem drainLiveEvents_deferred (hfailure : s.installPendingLiveWatcher.1.watcherFailure = none) :
    ∃ t : WorkspaceDaemon P C, s.drainLiveEvents true o = (t, .ok ()) ∧ t.rx = [] ∧
      t.watcherUpdates = [] ∧ t.watcherFailure = none ∧
      ∀ d, t.registry.pending.Demands d ↔ s.registry.pending.Demands d ∨
        (∃ event ∈ s.rx, (fromEvent event).Demands d) ∨
          s.installPendingLiveWatcher.2 = true ∧ d = .rescan := by
  have hrx : s.installPendingLiveWatcher.1.rx = s.rx := rfl
  have hregistry : s.installPendingLiveWatcher.1.registry = s.registry := rfl
  have hupdates : s.installPendingLiveWatcher.1.watcherUpdates = [] := rfl
  unfold drainLiveEvents
  generalize s.installPendingLiveWatcher = installed at *
  obtain ⟨t, watcherInstalled⟩ := installed
  simp only at hfailure hrx hregistry hupdates ⊢
  simp only [hfailure]
  have hplan : ∀ plan : WorkspaceLiveRefreshPlan P,
      ∃ u : WorkspaceDaemon P C, t.takeEvents.drainPlan plan true o = (u, .ok ()) ∧ u.rx = [] ∧
        u.watcherUpdates = [] ∧ u.watcherFailure = none ∧
        ∀ d, u.registry.pending.Demands d ↔ s.registry.pending.Demands d ∨ plan.Demands d := by
    intro plan
    unfold drainPlan
    split_ifs with hempty htrue
    · refine ⟨t.takeEvents, rfl, rfl, hupdates, hfailure, fun d => ?_⟩
      rw [or_iff_left (not_demands_of_isEmpty hempty d)]
      exact Eq.to_iff (congrArg (·.pending.Demands d) hregistry)
    · refine ⟨_, rfl, rfl, hupdates, hfailure, fun d => ?_⟩
      rw [demands_markStale]
      exact or_congr_left (Eq.to_iff (congrArg (·.pending.Demands d) hregistry))
    · exact absurd rfl htrue
  have htaken : ∀ d, t.takenPlan.Demands d ↔ ∃ event ∈ s.rx, (fromEvent event).Demands d :=
    fun d => hrx ▸ demands_takenPlan
  have hstale : ∀ u : WorkspaceDaemon P C, u.drainStale true o = (u, .ok ()) := fun u => by
    simp [drainStale]
  cases watcherInstalled with
  | true =>
    obtain ⟨u, hu, hurx, huupdates, hufailure, hupending⟩ := hplan
      (t.takenPlan.coalesce (fromEvent .rescanRequired))
    refine ⟨u, ?_, hurx, huupdates, hufailure, fun d => ?_⟩
    · simp only [if_true, hu, Answer.andThen, hstale]
    · rw [hupending, demands_coalesce, htaken]
      cases d <;> simp [fromEvent, Demands]
  | false =>
    obtain ⟨u, hu, hurx, huupdates, hufailure, hupending⟩ := hplan t.takenPlan
    refine ⟨u, ?_, hurx, huupdates, hufailure, fun d => ?_⟩
    · simp only [Bool.false_eq_true, if_false, hu, Answer.andThen, hstale]
    · rw [hupending, htaken]
      simp

theorem drainLiveEvents_failed {deferAutoRefresh : Bool} {message : String}
    (hfailure : s.installPendingLiveWatcher.1.watcherFailure = some message) :
    s.drainLiveEvents deferAutoRefresh o =
      (s.installPendingLiveWatcher.1, .error (liveWatcherFailed message)) := by
  unfold drainLiveEvents
  simp only [hfailure]

/-- A full build that succeeds leaves what is pending. -/
theorem refreshFull_ok (h : (s.refreshFull result).2 = .ok ()) :
    (s.refreshFull result).1.rx = s.rx ∧
      (s.refreshFull result).1.watcherUpdates = s.watcherUpdates ∧
      (s.refreshFull result).1.watcherFailure = s.watcherFailure ∧
      (s.refreshFull result).1.isStale = s.isStale ∧
      (s.refreshFull result).1.registry.snapshot.isNone = false := by
  cases result with
  | ok c => exact ⟨rfl, rfl, rfl, rfl, rfl⟩
  | error failure => cases h

/-- A restart that succeeds changes the registration only. -/
theorem restartLiveWatcher_ok {restart : Restart} (h : (s.restartLiveWatcher restart).2 = .ok ()) :
    (s.restartLiveWatcher restart).1.watcherUpdates = s.watcherUpdates ∧
      (s.restartLiveWatcher restart).1.watcherFailure = s.watcherFailure ∧
      (s.restartLiveWatcher restart).1.registry = s.registry := by
  have hregister : (s.registerLiveWatcher restart.spawned).1.watcherUpdates = s.watcherUpdates ∧
      (s.registerLiveWatcher restart.spawned).1.watcherFailure = s.watcherFailure ∧
      (s.registerLiveWatcher restart.spawned).1.registry = s.registry := by
    unfold registerLiveWatcher
    split_ifs <;> exact ⟨rfl, rfl, rfl⟩
  unfold restartLiveWatcher at h ⊢
  cases hwatcher : s.watcher with
  | none => exact hregister
  | some watcher =>
    simp only [hwatcher] at h ⊢
    split_ifs at h ⊢
    exact hregister

theorem isStale_eq_false_iff : s.isStale = false ↔ ∀ d, ¬ s.registry.pending.Demands d := by
  rw [← Bool.not_eq_true, isStale_iff, not_exists]

/-- After a successful `workspace.refresh` the workspace is fresh exactly when nothing was pending
and nothing waited. -/
theorem fresh_refresh_iff (hok : (s.handleWorkspaceRefresh o).2 = .ok ()) :
    Fresh (s.handleWorkspaceRefresh o).1 ↔ Unburdened s := by
  suffices hspec : (s.handleWorkspaceRefresh o).1.watcherUpdates = [] ∧
      ((s.handleWorkspaceRefresh o).1.watcherFailure = none →
        (s.handleWorkspaceRefresh o).1.rx = []) ∧
      (s.handleWorkspaceRefresh o).1.registry.snapshot.isNone = false ∧
      ((s.handleWorkspaceRefresh o).1.isStale = false ↔ Unburdened s) by
    obtain ⟨hupdates, hevents, hsnapshot, hstale⟩ := hspec
    exact ⟨fun h => hstale.mp h.fresh, fun h =>
      Quiet.isFresh ⟨hstale.mpr h, hupdates, hevents, hsnapshot⟩⟩
  unfold handleWorkspaceRefresh at hok ⊢
  cases hfailure : s.installPendingLiveWatcher.1.watcherFailure with
  | none =>
    obtain ⟨t, hdrain, hrx, hupdates, hnone, hpending⟩ := @drainLiveEvents_deferred P C _ s o hfailure
    simp only [hdrain] at hok ⊢
    obtain ⟨hrx', hupdates', -, hstale, hsnapshot⟩ := refreshFull_ok hok
    refine ⟨hupdates'.trans hupdates, fun _ => hrx'.trans hrx, hsnapshot, ?_⟩
    rw [hstale, isStale_eq_false_iff]
    constructor
    · intro h
      refine ⟨isStale_eq_false_iff.mpr fun d hd => h d ((hpending d).mpr (Or.inl hd)), fun _ => ⟨?_, ?_⟩⟩
      · refine Bool.eq_false_iff.mpr fun hinstalled => ?_
        exact h .rescan ((hpending _).mpr (Or.inr (Or.inr ⟨hinstalled, rfl⟩)))
      · exact fun event hevent d hd =>
          h d ((hpending d).mpr (Or.inr (Or.inl ⟨event, hevent, hd⟩)))
    · intro h d hd
      obtain ⟨hinstalled, hwaiting⟩ := h.waiting hfailure
      rcases (hpending d).mp hd with hd | ⟨event, hevent, hd⟩ | ⟨htrue, -⟩
      · exact isStale_eq_false_iff.mp h.pending d hd
      · exact hwaiting event hevent d hd
      · rw [hinstalled] at htrue
        cases htrue
  | some message =>
    have hdrain := @drainLiveEvents_failed P C _ s o true message hfailure
    have hcode : (liveWatcherFailed message).code = "live_watcher_failed" := rfl
    simp only [hdrain, hcode, if_true] at hok ⊢
    cases hfull : s.installPendingLiveWatcher.1.refreshFull o.full with
    | mk t result =>
      rw [hfull] at hok
      cases result with
      | error error => cases hok
      | ok =>
        obtain ⟨-, hupdates, hfailed, hstale, hsnapshot⟩ :=
          refreshFull_ok (congrArg Prod.snd hfull)
        rw [hfull] at hupdates hfailed hstale hsnapshot
        simp only [Answer.andThen] at hok ⊢
        obtain ⟨hupdates', hfailed', hregistry⟩ := restartLiveWatcher_ok hok
        refine ⟨hupdates'.trans hupdates, fun hnone => ?_, ?_, ?_⟩
        · rw [hfailed', hfailed, hfailure] at hnone
          cases hnone
        · rw [hregistry]
          exact hsnapshot
        · have hpending : (t.restartLiveWatcher o.fullRestart).1.isStale = s.isStale := by
            have hrestart : (t.restartLiveWatcher o.fullRestart).1.isStale = t.isStale := by
              rw [isStale, hregistry, isStale]
            exact hrestart.trans hstale
          rw [hpending]
          refine ⟨fun h => ⟨h, fun hnone => ?_⟩, fun h => h.pending⟩
          rw [hfailure] at hnone
          cases hnone

/-! ## Every run -/

/-- In every careful run what is owed is pending, and a `workspace.refresh` that succeeds leaves
the workspace fresh exactly when nothing was pending and nothing waited before it. -/
theorem staleness_exact {policy : DaemonLiveRefreshPolicy} (h : Reachable policy Careful s) :
    (∀ d ∈ s.owed, s.registry.pending.Demands d) ∧
      ∀ o : Outside P C, (s.step .workspaceRefresh o).2 = .ok () →
        (Fresh (s.step .workspaceRefresh o).1 ↔ Unburdened s) :=
  ⟨(inv_of_reachable h).owed, fun _ hok => fresh_refresh_iff hok⟩

def sampleOutside (reconcile : Except WorkspaceFailure Unit) : Outside String Unit where
  reconcile := reconcile
  applyPorts := ⟨.ok (), fun _ _ => .ok (), fun _ => .ok ()⟩
  applyRestart := ⟨false, true⟩
  stalePorts := ⟨.ok (), fun _ _ => .ok (), fun _ => .ok ()⟩
  staleRestart := ⟨false, true⟩
  explicitPorts := ⟨.ok (), fun _ _ => .ok (), fun _ => .ok ()⟩
  explicitRestart := ⟨false, true⟩
  git := .ok none
  overlay := .ok ()
  full := .ok ()
  fullRestart := ⟨false, true⟩
  update := .ok .unchanged
  paths := .ok ()

/-- The full build of the next drain fails. -/
def sampleFailure : Except WorkspaceFailure Unit :=
  .error ⟨.sourceCatalog, "cannot read /ws"⟩

def sampleRun (s : WorkspaceDaemon String Unit)
    (calls : List (DaemonCall String × Except WorkspaceFailure Unit)) :
    WorkspaceDaemon String Unit :=
  calls.foldl (fun s call => (s.step call.1 (sampleOutside call.2)).1) s

theorem reachable_sampleRun
    {allowed : WorkspaceDaemon String Unit → DaemonCall String → Outside String Unit → Prop} :
    ∀ {s : WorkspaceDaemon String Unit} {calls : List (DaemonCall String × Except WorkspaceFailure Unit)},
      Reachable .onDemand allowed s →
      (∀ t, ∀ call ∈ calls, allowed t call.1 (sampleOutside call.2)) →
      Reachable .onDemand allowed (sampleRun s calls)
  | _, [], h, _ => h
  | s, call :: calls, h, hallowed => by
    obtain ⟨hnow, hlater⟩ := forall_and.mp fun t => forall_mem_cons.mp (hallowed t)
    exact @reachable_sampleRun allowed (sampleRun s [call]) calls (.step h (hnow s)) hlater

/-- The first build is done. -/
def sampleLoaded : WorkspaceDaemon String Unit :=
  sampleRun { policy := .onDemand } [(.preload false, .ok ())]

/-- The first watcher is installed, and owes a rescan. -/
def sampleWatched : WorkspaceDaemon String Unit :=
  sampleRun sampleLoaded [(.installInitial 1 ⟨false, true⟩, .ok ())]

/-- A refreshed workspace, whose watcher is replaced. A path changes, and a query installs the
watcher. -/
def sampleReconciled : WorkspaceDaemon String Unit :=
  sampleRun sampleWatched [(.query .other .refreshIfStale, .ok ()), (.deliver 2 (.ok ⟨false, true⟩), .ok ()),
    (.send (.sourcesChanged ["src/a.rs"]), .ok ()), (.query .other .current, sampleFailure)]

theorem staleness_exact_sample :
    (sampleWatched.owed = [.rescan] ∧ ∀ d ∈ sampleWatched.owed, sampleWatched.registry.pending.Demands d) ∧
      Fresh (sampleLoaded.step .workspaceRefresh (sampleOutside (.ok ()))).1 := by
  have hcareful : ∀ t : WorkspaceDaemon String Unit, ∀ call : DaemonCall String,
      Careful t call (sampleOutside (.ok ())) := fun _ _ _ _ => ⟨(), rfl⟩
  have hloaded : Reachable .onDemand Careful sampleLoaded :=
    reachable_sampleRun .new fun t call hcall => by
      obtain rfl := mem_singleton.mp hcall
      exact hcareful t _
  have hwatched : Reachable .onDemand Careful sampleWatched :=
    reachable_sampleRun hloaded fun t call hcall => by
      obtain rfl := mem_singleton.mp hcall
      exact hcareful t _
  refine ⟨⟨rfl, (staleness_exact hwatched).1⟩, ?_⟩
  refine ((staleness_exact hloaded).2 (sampleOutside (.ok ())) rfl).mpr ⟨rfl, fun _ => ⟨rfl, ?_⟩⟩
  exact fun event hevent => nomatch hevent

/-- A full build that fails after a watcher was installed drops what was taken, and a successful
`workspace.refresh` leaves the workspace stale. -/
theorem staleness_inexact :
    (¬ ∀ s : WorkspaceDaemon String Unit, Reachable .onDemand (fun _ _ _ => True) s →
      ∀ d ∈ s.owed, s.registry.pending.Demands d) ∧
    ¬ ∀ s : WorkspaceDaemon String Unit, Reachable .onDemand (fun _ _ _ => True) s →
      ∀ o, (s.step .workspaceRefresh o).2 = .ok () → Fresh (s.step .workspaceRefresh o).1 := by
  have hloaded : Reachable .onDemand (fun _ _ _ => True) sampleLoaded :=
    reachable_sampleRun .new fun _ _ _ => trivial
  have hwatched : Reachable .onDemand (fun _ _ _ => True) sampleWatched :=
    reachable_sampleRun hloaded fun _ _ _ => trivial
  have hreconciled : Reachable .onDemand (fun _ _ _ => True) sampleReconciled :=
    reachable_sampleRun hwatched fun _ _ _ => trivial
  refine ⟨fun h => ?_, fun h => ?_⟩
  · have hpath : LiveDemand.path "src/a.rs" ∈ sampleReconciled.owed := by decide
    have hpending : LiveDemand.path "src/a.rs" ∈ sampleReconciled.registry.pending.demands :=
      mem_demands.mpr (h sampleReconciled hreconciled _ hpath)
    revert hpending
    decide
  · have hfresh := (h sampleWatched hwatched (sampleOutside (.ok ())) rfl).fresh
    revert hfresh
    decide

end WorkspaceDaemon

end CodeMoniker
