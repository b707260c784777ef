import CodeMoniker.LiveRefresh
import CodeMoniker.Pagination

/-!
# The live channel of the daemon

The daemon takes the events off its live channel before most requests (`drainLiveEvents`),
and marks the plan that they make as stale or runs it, by its policy and by the request. A
watcher is registered in the background and installed by the next request that drains. What
the ports and the operating system answer is part of a call, so each build, registration and
restart may succeed or fail.

What is owed is recorded beside the state of the code : the demands of the events that were
taken, and a rescan for each watcher that was installed, until a build with them publishes. A
full build covers every demand. The epoch of a registration is a `u64` that no run wraps.
-/

namespace CodeMoniker

open Query (QueryError)

deriving instance DecidableEq for LiveDemand

namespace WorkspaceLiveRefreshPlan

variable {P : Type}

/-- What the plan asks for. -/
def demands (plan : WorkspaceLiveRefreshPlan P) : List (LiveDemand P) :=
  (if plan.rescan then [.rescan] else []) ++ (if plan.gitBase then [.gitBase] else []) ++
    plan.sourcePaths.map .path

theorem mem_demands {plan : WorkspaceLiveRefreshPlan P} {d : LiveDemand P} :
    d ∈ plan.demands ↔ plan.Demands d := by
  cases d <;> simp [demands, Demands]

end WorkspaceLiveRefreshPlan

inductive DaemonLiveRefreshPolicy
  | onDemand
  | auto
  deriving DecidableEq, Repr

structure LiveWorkspaceWatcher where
  usesPolling : Bool
  runtimeFallbackAllowed : Bool
  deriving DecidableEq, Repr

/-- The daemon, with the demands that are owed. -/
structure WorkspaceDaemon (P C : Type) where
  registry : WorkspaceState P C := {}
  policy : DaemonLiveRefreshPolicy
  rx : List (WorkspaceLiveEvent P) := []
  watcher : Option LiveWorkspaceWatcher := none
  watcherEpoch : ℕ := 0
  registrations : List ℕ := []
  watcherUpdates : List (ℕ × Except String LiveWorkspaceWatcher) := []
  watcherFailure : Option String := none
  owed : List (LiveDemand P) := []

/-- What a restart of the watcher meets : the old watcher has failed, a thread can be spawned. -/
structure Restart where
  runtimeFailed : Bool
  spawned : Bool

inductive SourceSetUpdate
  | unchanged
  | bulk
  | incremental

/-- What is answered from outside during one call. -/
structure Outside (P C : Type) where
  reconcile : Except WorkspaceFailure C
  applyPorts : LivePorts P C
  applyRestart : Restart
  stalePorts : LivePorts P C
  staleRestart : Restart
  explicitPorts : LivePorts P C
  explicitRestart : Restart
  git : Except QueryError (Option QueryError)
  overlay : Except WorkspaceFailure C
  full : Except WorkspaceFailure C
  fullRestart : Restart
  update : Except QueryError SourceSetUpdate
  paths : Except WorkspaceFailure C

/-- The queries by what the daemon does before it dispatches them. A review or context is global
when it names no workspace, or there is one root. -/
inductive QueryKind
  | text
  | status
  | describe
  | review (global : Bool)
  | context (global : Bool)
  | other
  deriving DecidableEq, Repr

def QueryKind.requiresFreshChangeMaterial : QueryKind → Bool
  | .review _ | .context _ => true
  | _ => false

abbrev Answer (P C : Type) := WorkspaceDaemon P C × Except QueryError Unit

/-- Go on when no error was returned. -/
def Answer.andThen {P C : Type} (answer : Answer P C) (next : WorkspaceDaemon P C → Answer P C) :
    Answer P C :=
  match answer.2 with
  | .ok _ => next answer.1
  | .error error => (answer.1, .error error)

def workspaceTransitionResult : Option WorkspaceTransition → Except QueryError Unit
  | some (.failed failure _) => .error ⟨"workspace_refresh_failed", failure.message⟩
  | _ => .ok ()

def liveWatcherFailed (message : String) : QueryError := ⟨"live_watcher_failed", message⟩

def restartStopped : String :=
  "live watcher runtime failed; automatic restart stopped to avoid a rescan loop"

def spawnFailed : String := "Resource temporarily unavailable (os error 11)"

def workspaceStale : QueryError :=
  ⟨"workspace_stale", "workspace is stale; request consistency refresh-if-stale or stale-ok"⟩

def workspaceLoading : QueryError :=
  ⟨"workspace_loading",
    "workspace snapshot is still loading; retry after workspace.status reports phase ready"⟩

def snapshotNotReady : QueryError := ⟨"workspace_loading", "workspace snapshot is not ready"⟩

namespace WorkspaceDaemon

variable {P C : Type} [DecidableEq P] (s : WorkspaceDaemon P C)

def isStale : Bool :=
  s.registry.pending.rescan || !s.registry.pending.sourcePaths.isEmpty ||
    s.registry.pending.gitBase

/-! ## Builds and restarts -/

/-- A full build. -/
def refreshFull (result : Except WorkspaceFailure C) : Answer P C :=
  let (registry, report) := s.registry.execute result
  match workspaceTransitionResult report.transition with
  | .ok _ => ({ s with registry, owed := [] }, .ok ())
  | .error error => ({ s with registry }, .error error)

/-- Any other command of the registry. -/
def execute (s : WorkspaceDaemon P C) (result : Except WorkspaceFailure C) : Answer P C :=
  let (registry, report) := s.registry.execute result
  ({ s with registry }, workspaceTransitionResult report.transition)

def markStale (s : WorkspaceDaemon P C) (plan : WorkspaceLiveRefreshPlan P) :
    WorkspaceDaemon P C :=
  { s with registry := s.registry.markStale plan }

/-- A thread registers a new watcher. -/
def registerLiveWatcher (spawned : Bool) : Answer P C :=
  if spawned then
    ({ s with
        watcher := none
        watcherEpoch := s.watcherEpoch + 1
        registrations := s.registrations ++ [s.watcherEpoch + 1] }, .ok ())
  else ({ s with watcher := none }, .error (liveWatcherFailed spawnFailed))

def restartLiveWatcher (restart : Restart) : Answer P C :=
  match s.watcher with
  | some watcher =>
    if restart.runtimeFailed && (watcher.usesPolling || !watcher.runtimeFallbackAllowed) then
      ({ s with watcher := none, watcherFailure := some restartStopped },
        .error (liveWatcherFailed restartStopped))
    else s.registerLiveWatcher restart.spawned
  | none => s.registerLiveWatcher restart.spawned

/-- After a run of a plan : an error is returned, or the watcher is replaced. -/
def finishPlan (run : WorkspaceState P C × LiveReport P)
    (restart : Restart) : Answer P C :=
  let (registry, report) := run
  match workspaceTransitionResult report.transition with
  | .error error => ({ s with registry }, .error error)
  | .ok _ =>
    let s := { s with
      registry
      owed := s.owed.filter (· ∉ (report.plan.getD {}).demands) }
    if report.replaceWatcher then s.restartLiveWatcher restart else (s, .ok ())

def applyLivePlan (plan : WorkspaceLiveRefreshPlan P)
    (ports : LivePorts P C) (restart : Restart) : Answer P C :=
  s.finishPlan (s.registry.runLivePlanRetainingFailure "daemon-live-refresh" ports plan) restart

def refreshStale (s : WorkspaceDaemon P C) (ports : LivePorts P C) (restart : Restart) :
    Answer P C :=
  s.finishPlan (s.registry.refreshStale "daemon-refresh-stale" ports) restart

def applyLivePlanForPolicy (plan : WorkspaceLiveRefreshPlan P)
    (o : Outside P C) : Answer P C :=
  if plan.isEmpty then (s, .ok ())
  else
    match s.policy with
    | .onDemand => (s.markStale plan, .ok ())
    | .auto => s.applyLivePlan plan o.applyPorts o.applyRestart

/-! ## Draining -/

/-- An update of the current epoch : a watcher is installed, or its registration has failed. -/
def installUpdate (epoch : ℕ) (live : Option LiveWorkspaceWatcher × Option String × Bool)
    (update : ℕ × Except String LiveWorkspaceWatcher) :
    Option LiveWorkspaceWatcher × Option String × Bool :=
  if update.1 ≠ epoch then live
  else
    match update.2 with
    | .ok watcher => (some watcher, none, true)
    | .error message => (live.1, some message, live.2.2)

/-- An installed watcher owes a rescan. -/
def installPendingLiveWatcher : WorkspaceDaemon P C × Bool :=
  let (watcher, watcherFailure, installed) :=
    s.watcherUpdates.foldl (installUpdate s.watcherEpoch) (s.watcher, s.watcherFailure, false)
  ({ s with
      watcher
      watcherFailure
      watcherUpdates := []
      owed := if installed then .rescan :: s.owed else s.owed }, installed)

/-- The plan of the events, as they are taken off the channel. -/
def takenPlan : WorkspaceLiveRefreshPlan P :=
  s.rx.foldl (fun plan event => plan.coalesce (WorkspaceLiveRefreshPlan.fromEvent event)) {}

/-- Take the events off the channel. Their demands are owed. -/
def takeEvents : WorkspaceDaemon P C :=
  { s with
    rx := []
    owed := s.owed ++ s.rx.flatMap fun event =>
      (WorkspaceLiveRefreshPlan.fromEvent event).demands }

/-- The plan is marked as stale or runs. -/
def drainPlan (plan : WorkspaceLiveRefreshPlan P)
    (deferAutoRefresh : Bool) (o : Outside P C) : Answer P C :=
  if plan.isEmpty then (s, .ok ())
  else if deferAutoRefresh then (s.markStale plan, .ok ())
  else s.applyLivePlanForPolicy plan o

/-- What is stale is refreshed by the policy. -/
def drainStale (deferAutoRefresh : Bool) (o : Outside P C) :
    Answer P C :=
  if !deferAutoRefresh && s.policy = .auto && s.isStale then
    s.refreshStale o.stalePorts o.staleRestart
  else (s, .ok ())

def drainLiveEvents (deferAutoRefresh : Bool) (o : Outside P C) :
    Answer P C :=
  let (s, watcherInstalled) := s.installPendingLiveWatcher
  match s.watcherFailure with
  | some message => (s, .error (liveWatcherFailed message))
  | none =>
    let plan := s.takenPlan
    let s := s.takeEvents
    let drained : Answer P C :=
      if watcherInstalled then
        if deferAutoRefresh then
          s.drainPlan (plan.coalesce (WorkspaceLiveRefreshPlan.fromEvent .rescanRequired))
            deferAutoRefresh o
        else (s.refreshFull o.reconcile).andThen (·.drainPlan plan deferAutoRefresh o)
      else s.drainPlan plan deferAutoRefresh o
    drained.andThen (·.drainStale deferAutoRefresh o)

/-! ## Requests -/

/-- The overlay that a review or a context asks for. A context looks for Git first, and reports
the error of its overlay in its response. -/
def changeOverlay (kind : QueryKind) (o : Outside P C) : Answer P C :=
  match kind with
  | .review true => s.execute o.overlay
  | .context global =>
    match o.git with
    | .error error => (s, .error error)
    | .ok none => if global then ((s.execute o.overlay).1, .ok ()) else (s, .ok ())
    | .ok (some _) => (s, .ok ())
  | _ => (s, .ok ())

/-- A stale workspace is refreshed for a query that asks for it. -/
def refreshForQuery (kind : QueryKind) (consistency : Consistency)
    (o : Outside P C) : Answer P C :=
  if (consistency = .refreshIfStale || kind.requiresFreshChangeMaterial) && s.isStale then
    s.refreshStale o.explicitPorts o.explicitRestart
  else (s, .ok ())

/-- A stale workspace is refused for a query that asks for the current one. -/
def refuseStale (consistency : Consistency) : Answer P C :=
  if consistency = .current && s.isStale then (s, .error workspaceStale)
  else if s.registry.snapshot.isNone then (s, .error snapshotNotReady)
  else (s, .ok ())

/-- A query on the snapshot. -/
def loadedQuery (kind : QueryKind) (consistency : Consistency)
    (o : Outside P C) : Answer P C :=
  if s.registry.snapshot.isNone then (s, .error workspaceLoading)
  else (s.changeOverlay kind o).andThen (·.refuseStale consistency)

/-- A query up to its dispatch on the snapshot. -/
def handleQuery (kind : QueryKind) (consistency : Consistency)
    (o : Outside P C) : Answer P C :=
  match kind with
  | .text => (s, .ok ())
  | .status =>
    match s.drainLiveEvents true o with
    | (s, .ok _) => (s, .ok ())
    | (s, .error error) =>
      if error.code = "live_watcher_failed" then (s, .ok ()) else (s, .error error)
  | .describe => s.drainLiveEvents (consistency = .staleOk) o
  | .review _ | .context _ | .other =>
    (s.drainLiveEvents (consistency = .staleOk) o).andThen fun s =>
      (s.refreshForQuery kind consistency o).andThen (·.loadedQuery kind consistency o)

/-- The command `workspace.refresh`. A watcher that has failed is restarted after the build. -/
def handleWorkspaceRefresh (o : Outside P C) : Answer P C :=
  match s.drainLiveEvents true o with
  | (s, .ok _) => s.refreshFull o.full
  | (s, .error error) =>
    if error.code = "live_watcher_failed" then
      (s.refreshFull o.full).andThen (·.restartLiveWatcher o.fullRestart)
    else (s, .error error)

/-- A source set is replaced or removed. -/
def handleSourceSet (o : Outside P C) : Answer P C :=
  (s.drainLiveEvents false o).andThen fun s =>
    match o.update with
    | .error error => (s, .error error)
    | .ok .unchanged => (s, .ok ())
    | .ok .bulk => s.refreshFull o.full
    | .ok .incremental => s.execute o.paths

def registerInitialLiveWatcher (cancelled : Bool) : Answer P C :=
  if cancelled then (s, .error ⟨"workspace_cancelled", "workspace preload cancelled"⟩)
  else ({ s with watcherEpoch := s.watcherEpoch + 1 }, .ok ())

/-- The first build, after which the first watcher is registered. -/
def preload (cancelled : Bool) (o : Outside P C) : Answer P C :=
  if s.registry.snapshot.isNone then
    (s.refreshFull o.full).andThen (·.registerInitialLiveWatcher cancelled)
  else (s, .ok ())

/-- The first watcher is installed, and the workspace marked stale. -/
def installInitialLiveWatcher (epoch : ℕ)
    (watcher : LiveWorkspaceWatcher) : WorkspaceDaemon P C :=
  if epoch > s.watcherEpoch || s.watcher.isSome then s
  else
    ({ s with watcher := some watcher, owed := .rescan :: s.owed } : WorkspaceDaemon P C).markStale
      (WorkspaceLiveRefreshPlan.fromEvent .rescanRequired)

def recordLiveWatcherFailure (epoch : ℕ) (message : String) :
    WorkspaceDaemon P C :=
  if epoch ≠ s.watcherEpoch then
    s.markStale (WorkspaceLiveRefreshPlan.fromEvent .rescanRequired)
  else { s with watcherFailure := some message }

end WorkspaceDaemon

/-- What happens to the daemon. `send` is an event of the watcher, `deliver` the end of a
registration. -/
inductive DaemonCall (P : Type) where
  | send (event : WorkspaceLiveEvent P)
  | deliver (epoch : ℕ) (result : Except String LiveWorkspaceWatcher)
  | query (kind : QueryKind) (consistency : Consistency)
  | workspaceRefresh
  | sourceSet
  | preload (cancelled : Bool)
  | installInitial (epoch : ℕ) (watcher : LiveWorkspaceWatcher)
  | recordFailure (epoch : ℕ) (message : String)

namespace WorkspaceDaemon

variable {P C : Type} [DecidableEq P]

/-- A registration ends once. -/
def deliver (s : WorkspaceDaemon P C) (epoch : ℕ) (result : Except String LiveWorkspaceWatcher) :
    WorkspaceDaemon P C :=
  if epoch ∈ s.registrations then
    { s with
      registrations := s.registrations.erase epoch
      watcherUpdates := s.watcherUpdates ++ [(epoch, result)] }
  else s

def step (s : WorkspaceDaemon P C) (call : DaemonCall P) (o : Outside P C) : Answer P C :=
  match call with
  | .send event => ({ s with rx := s.rx ++ [event] }, .ok ())
  | .deliver epoch result => (s.deliver epoch result, .ok ())
  | .query kind consistency => s.handleQuery kind consistency o
  | .workspaceRefresh => s.handleWorkspaceRefresh o
  | .sourceSet => s.handleSourceSet o
  | .preload cancelled => s.preload cancelled o
  | .installInitial epoch watcher => (s.installInitialLiveWatcher epoch watcher, .ok ())
  | .recordFailure epoch message => (s.recordLiveWatcherFailure epoch message, .ok ())

/-- The states of a run from a new daemon whose calls are all `allowed`. -/
inductive Reachable (policy : DaemonLiveRefreshPolicy)
    (allowed : WorkspaceDaemon P C → DaemonCall P → Outside P C → Prop) :
    WorkspaceDaemon P C → Prop
  | new : Reachable policy allowed { policy }
  | step {s : WorkspaceDaemon P C} {call : DaemonCall P} {o : Outside P C} :
      Reachable policy allowed s → allowed s call o → Reachable policy allowed (s.step call o).1

end WorkspaceDaemon

end CodeMoniker
