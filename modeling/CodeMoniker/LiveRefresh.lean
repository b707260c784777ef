import Mathlib

/-!
# Live refresh and pending staleness

The watcher reports events, which become refresh plans. A registry marks plans as stale or
runs them : it takes the pending plan out before the build and puts it back when the build
fails. `WorkspaceState` is the state behind it and `LiveCall` what may be called, in any
order; what the ports answer to a build is part of the call, so each build may succeed or fail.

`owed_pending` says that a demand which was marked, or whose run failed, stays in the pending
plan until a run with that demand publishes, and `live_staleness` puts it together with what
holds of failed runs, of the generations that are handed out and of the merging of plans.
-/

namespace CodeMoniker

open List

/-! ## Plans -/

inductive WorkspaceLiveEvent (P : Type) where
  | gitBaseChanged
  | notes
  | gitBaseAndNotes
  | sourcesChanged (paths : List P)
  | sourcesAndNotes (paths : List P)
  | sourcesAndGitBase (paths : List P)
  | sourcesGitBaseAndNotes (paths : List P)
  | rescanRequired
  | rescanAndNotes
  | rescanAndGitBase
  | rescanGitBaseAndNotes

structure WorkspaceLiveRefreshPlan (P : Type) where
  rescan : Bool := false
  sourcePaths : List P := []
  gitBase : Bool := false
  notes : Bool := false
  deriving DecidableEq, Repr

/-- What a plan may ask for. Notes are read again without a build. -/
inductive LiveDemand (P : Type) where
  | path (p : P)
  | rescan
  | gitBase

def pushUnique {P : Type} [DecidableEq P] (paths : List P) (path : P) : List P :=
  if path ∈ paths then paths else paths ++ [path]

namespace WorkspaceLiveRefreshPlan

variable {P : Type}

def coalesce [DecidableEq P] (self other : WorkspaceLiveRefreshPlan P) :
    WorkspaceLiveRefreshPlan P where
  rescan := self.rescan || other.rescan
  gitBase := self.gitBase || other.gitBase
  notes := self.notes || other.notes
  sourcePaths := other.sourcePaths.foldl pushUnique self.sourcePaths

def isEmpty (plan : WorkspaceLiveRefreshPlan P) : Bool :=
  !plan.rescan && plan.sourcePaths.isEmpty && !plan.gitBase && !plan.notes

variable (plan : WorkspaceLiveRefreshPlan P)

def withoutNotes : WorkspaceLiveRefreshPlan P :=
  { plan with notes := false }

def fromEvent : WorkspaceLiveEvent P → WorkspaceLiveRefreshPlan P
  | .rescanRequired => { rescan := true }
  | .rescanAndNotes => { rescan := true, notes := true }
  | .rescanAndGitBase => { rescan := true, gitBase := true }
  | .rescanGitBaseAndNotes => { rescan := true, gitBase := true, notes := true }
  | .gitBaseChanged => { gitBase := true }
  | .notes => { notes := true }
  | .gitBaseAndNotes => { gitBase := true, notes := true }
  | .sourcesChanged sourcePaths => { sourcePaths }
  | .sourcesAndNotes sourcePaths => { sourcePaths, notes := true }
  | .sourcesAndGitBase sourcePaths => { sourcePaths, gitBase := true }
  | .sourcesGitBaseAndNotes sourcePaths => { sourcePaths, gitBase := true, notes := true }

def intoEvent : WorkspaceLiveEvent P :=
  if plan.rescan then
    match plan.gitBase, plan.notes with
    | true, true => .rescanGitBaseAndNotes
    | true, false => .rescanAndGitBase
    | false, true => .rescanAndNotes
    | false, false => .rescanRequired
  else
    match plan.sourcePaths.isEmpty, plan.gitBase, plan.notes with
    | false, true, true => .sourcesGitBaseAndNotes plan.sourcePaths
    | false, true, false => .sourcesAndGitBase plan.sourcePaths
    | false, false, true => .sourcesAndNotes plan.sourcePaths
    | false, false, false => .sourcesChanged plan.sourcePaths
    | true, true, true => .gitBaseAndNotes
    | true, true, false => .gitBaseChanged
    | true, false, true => .notes
    | true, false, false => .rescanRequired

/-- The plan contains the demand. -/
def Demands : LiveDemand P → Prop
  | .path p => p ∈ plan.sourcePaths
  | .rescan => plan.rescan = true
  | .gitBase => plan.gitBase = true

/-- Equal up to the order and the repetition of the paths. -/
def Same (p q : WorkspaceLiveRefreshPlan P) : Prop :=
  p.rescan = q.rescan ∧ p.gitBase = q.gitBase ∧ p.notes = q.notes ∧
    ∀ x, x ∈ p.sourcePaths ↔ x ∈ q.sourcePaths

/-! ### Merging -/

section Merge

variable [DecidableEq P]

theorem mem_foldl_pushUnique {x : P} : ∀ {new old : List P},
    x ∈ new.foldl pushUnique old ↔ x ∈ old ∨ x ∈ new
  | [], old => by simp
  | y :: new, old => by
    have hpush : x ∈ pushUnique old y ↔ x ∈ old ∨ x = y := by
      unfold pushUnique
      split_ifs with hy
      · exact ⟨Or.inl, fun h => h.elim id fun hxy => hxy ▸ hy⟩
      · simp
    rw [foldl_cons, mem_foldl_pushUnique, hpush, mem_cons]
    tauto

theorem foldl_pushUnique_eq_self : ∀ {new old : List P}, (∀ x ∈ new, x ∈ old) →
    new.foldl pushUnique old = old
  | [], old, _ => rfl
  | y :: new, old, h => by
    have hy : pushUnique old y = old := if_pos (h y mem_cons_self)
    rw [foldl_cons, hy]
    exact foldl_pushUnique_eq_self fun x hx => h x (mem_cons_of_mem y hx)

theorem nodup_foldl_pushUnique : ∀ {new old : List P}, old.Nodup → (new.foldl pushUnique old).Nodup
  | [], old, h => h
  | y :: new, old, h => by
    rw [foldl_cons]
    refine nodup_foldl_pushUnique ?_
    unfold pushUnique
    split_ifs with hy
    · exact h
    · exact nodup_append.mpr ⟨h, nodup_singleton y, by grind⟩

/-- A path that is pushed into the second plan is pushed into the merged one. -/
theorem foldl_pushUnique_pushUnique (q p : List P) (x : P) :
    (pushUnique q x).foldl pushUnique p = pushUnique (q.foldl pushUnique p) x := by
  by_cases hx : x ∈ q
  · have hin : x ∈ q.foldl pushUnique p := mem_foldl_pushUnique.mpr (Or.inr hx)
    rw [pushUnique, if_pos hx, pushUnique, if_pos hin]
  · rw [pushUnique, if_neg hx, foldl_append]
    rfl

theorem foldl_pushUnique_assoc (p : List P) : ∀ (r q : List P),
    r.foldl pushUnique (q.foldl pushUnique p) = (r.foldl pushUnique q).foldl pushUnique p
  | [], q => rfl
  | x :: r, q => by
    rw [foldl_cons, foldl_cons, ← foldl_pushUnique_pushUnique]
    exact foldl_pushUnique_assoc p r (pushUnique q x)

theorem coalesce_assoc (p q r : WorkspaceLiveRefreshPlan P) :
    (p.coalesce q).coalesce r = p.coalesce (q.coalesce r) := by
  simp only [coalesce, Bool.or_assoc, foldl_pushUnique_assoc]

theorem coalesce_self (p : WorkspaceLiveRefreshPlan P) : p.coalesce p = p := by
  have hpaths : p.sourcePaths.foldl pushUnique p.sourcePaths = p.sourcePaths :=
    foldl_pushUnique_eq_self fun _ hx => hx
  simp only [coalesce, Bool.or_self, hpaths]

theorem coalesce_comm (p q : WorkspaceLiveRefreshPlan P) : (p.coalesce q).Same (q.coalesce p) := by
  refine ⟨Bool.or_comm _ _, Bool.or_comm _ _, Bool.or_comm _ _, fun x => ?_⟩
  simp only [coalesce, mem_foldl_pushUnique]
  exact or_comm

theorem coalesce_perm {p q : WorkspaceLiveRefreshPlan P} (hp : p.sourcePaths.Nodup)
    (hq : q.sourcePaths.Nodup) : (p.coalesce q).sourcePaths.Perm (q.coalesce p).sourcePaths :=
  (perm_ext_iff_of_nodup (nodup_foldl_pushUnique hp) (nodup_foldl_pushUnique hq)).mpr
    (coalesce_comm p q).2.2.2

theorem demands_coalesce {p q : WorkspaceLiveRefreshPlan P} {d : LiveDemand P} :
    (p.coalesce q).Demands d ↔ p.Demands d ∨ q.Demands d := by
  cases d with
  | path x => exact mem_foldl_pushUnique
  | rescan => exact Bool.or_eq_true_iff
  | gitBase => exact Bool.or_eq_true_iff

end Merge

variable {p : WorkspaceLiveRefreshPlan P}

theorem demands_withoutNotes {d : LiveDemand P} : p.withoutNotes.Demands d ↔ p.Demands d := by
  cases d <;> rfl

theorem not_demands_of_isEmpty (h : p.isEmpty = true) (d : LiveDemand P) : ¬p.Demands d := by
  simp only [isEmpty, Bool.and_eq_true, Bool.not_eq_true', List.isEmpty_iff] at h
  obtain ⟨⟨⟨hrescan, hpaths⟩, hgit⟩, -⟩ := h
  cases d <;> simp [Demands, hrescan, hpaths, hgit]

/-- An event keeps what a plan asks for, where a rescan stands for its paths. -/
theorem fromEvent_intoEvent (h : p.isEmpty = false) :
    fromEvent p.intoEvent = if p.rescan then { p with sourcePaths := [] } else p := by
  obtain ⟨rescan, sourcePaths, gitBase, notes⟩ := p
  cases rescan <;> cases gitBase <;> cases notes <;> cases sourcePaths <;>
    simp_all [isEmpty, intoEvent, fromEvent]

end WorkspaceLiveRefreshPlan

/-! ## The state of the registry -/

inductive WorkspaceResource where
  | sourceCatalog
  | codeIndex
  | linkageSnapshot
  | changeOverlay
  deriving DecidableEq, Repr

structure WorkspaceFailure where
  resource : WorkspaceResource
  message : String
  deriving DecidableEq, Repr

/-- A snapshot : its generation and what the ports have built. -/
structure WorkspaceSnapshot (C : Type) where
  generation : ℕ
  content : C

inductive WorkspaceTransition where
  | ready (generation : ℕ)
  | failed (failure : WorkspaceFailure) (preservedGeneration : Option ℕ)
  deriving DecidableEq, Repr

structure WorkspaceState (P C : Type) where
  nextGeneration : ℕ := 1
  snapshot : Option (WorkspaceSnapshot C) := none
  lastFailure : Option WorkspaceFailure := none
  pending : WorkspaceLiveRefreshPlan P := {}

namespace WorkspaceState

variable {P C : Type} (s : WorkspaceState P C)

/-- The counter is a `u64`, and the build profiles turn the overflow checks off. -/
def allocateGeneration : ℕ × WorkspaceState P C :=
  (s.nextGeneration, { s with nextGeneration := (s.nextGeneration + 1) % 2 ^ 64 })

def publishSnapshot (snapshot : WorkspaceSnapshot C) :
    WorkspaceTransition × WorkspaceState P C :=
  (.ready snapshot.generation, { s with snapshot := some snapshot, lastFailure := none })

def publishFailure (failure : WorkspaceFailure) :
    WorkspaceTransition × WorkspaceState P C :=
  (.failed failure (s.snapshot.map (·.generation)), { s with lastFailure := some failure })

def publish :
    Except WorkspaceFailure (WorkspaceSnapshot C) → WorkspaceTransition × WorkspaceState P C
  | .ok snapshot => s.publishSnapshot snapshot
  | .error failure => s.publishFailure failure

def adoptSnapshotArc (snapshot : WorkspaceSnapshot C) :
    WorkspaceTransition × WorkspaceState P C :=
  (.ready snapshot.generation, { s with
      nextGeneration := max s.nextGeneration ((snapshot.generation + 1) % 2 ^ 64)
      snapshot := some snapshot
      lastFailure := none })

def coalescePending [DecidableEq P]
    (plan : WorkspaceLiveRefreshPlan P) : WorkspaceState P C :=
  { s with pending := s.pending.coalesce plan }

end WorkspaceState

/-! ## Builds -/

/-- What the ports answer during one build. -/
structure LivePorts (P C : Type) where
  complete : Except WorkspaceFailure C
  incremental : C → List P → Except WorkspaceFailure C
  overlay : C → Except WorkspaceFailure C

namespace LivePorts

variable {P C : Type} (ports : LivePorts P C) (current : Option (WorkspaceSnapshot C))
  (label : String) (generation : ℕ)

def buildCompleteSnapshot : Except WorkspaceFailure (WorkspaceSnapshot C) :=
  ports.complete.map (⟨generation, ·⟩)

def buildIncrementalPathsSnapshot (paths : List P) :
    Except WorkspaceFailure (WorkspaceSnapshot C) :=
  match current with
  | none => .error ⟨.codeIndex, label ++ " requires an indexed workspace snapshot"⟩
  | some current => (ports.incremental current.content paths).map (⟨generation, ·⟩)

def buildChangeOverlaySnapshot : Except WorkspaceFailure (WorkspaceSnapshot C) :=
  match current with
  | none => .error ⟨.changeOverlay, label ++ " requires a workspace snapshot"⟩
  | some current => (ports.overlay current.content).map (⟨generation, ·⟩)

def cloneCurrentSnapshot : Except WorkspaceFailure (WorkspaceSnapshot C) :=
  match current with
  | none => .error ⟨.codeIndex, label ++ " requires a workspace snapshot"⟩
  | some current => .ok { current with generation := generation }

/-- The snapshot, and whether the watcher is replaced. An incremental build that fails is
done again in full. -/
def buildCodeSnapshot (plan : WorkspaceLiveRefreshPlan P) :
    Except WorkspaceFailure (WorkspaceSnapshot C × Bool) :=
  if plan.rescan then (ports.buildCompleteSnapshot generation).map (·, true)
  else if plan.sourcePaths.isEmpty then
    (cloneCurrentSnapshot current label generation).map (·, false)
  else
    match ports.buildIncrementalPathsSnapshot current label generation plan.sourcePaths with
    | .ok snapshot => .ok (snapshot, false)
    | .error _ => (ports.buildCompleteSnapshot generation).map (·, true)

/-- `LivePlanBuild::build`. -/
def build (plan : WorkspaceLiveRefreshPlan P) :
    Except WorkspaceFailure (WorkspaceSnapshot C × Bool) := do
  let (snapshot, replaceWatcher) ← ports.buildCodeSnapshot current label generation plan
  if plan.gitBase && !plan.rescan then
    let overlay ← ports.buildChangeOverlaySnapshot (some snapshot) label generation
    return (overlay, replaceWatcher)
  else return (snapshot, replaceWatcher)

end LivePorts

/-! ## Calls -/

/-- A call of the registry, with what the ports answer to the build it runs. `execute` is any
other command, with the result of its build. -/
inductive LiveCall (P C : Type) where
  | markStale (plan : WorkspaceLiveRefreshPlan P)
  | applyPlan (label : String) (ports : LivePorts P C) (plan : WorkspaceLiveRefreshPlan P)
  | refreshStale (label : String) (ports : LivePorts P C)
  | execute (result : Except WorkspaceFailure C)
  | publishSnapshot (snapshot : WorkspaceSnapshot C)

/-- What a call reports : the plan that it ran, the generation that it allocated, and the
transition and the watcher flag that it returned. -/
structure LiveReport (P : Type) where
  plan : Option (WorkspaceLiveRefreshPlan P) := none
  allocated : Option ℕ := none
  transition : Option WorkspaceTransition := none
  replaceWatcher : Bool := false

namespace WorkspaceState

variable {P C : Type} [DecidableEq P]

def runLivePlan (s : WorkspaceState P C) (label : String) (ports : LivePorts P C)
    (plan : WorkspaceLiveRefreshPlan P) : WorkspaceState P C × LiveReport P :=
  let (generation, s) := s.allocateGeneration
  let result := ports.build s.snapshot label generation plan
  let replaceWatcher :=
    match result with
    | .ok built => built.2
    | .error _ => plan.rescan
  let (transition, s) := s.publish (result.map (·.1))
  (s, { plan := some plan, allocated := some generation, transition := some transition,
        replaceWatcher })

def runLivePlanRetainingFailure (s : WorkspaceState P C) (label : String)
    (ports : LivePorts P C) (plan : WorkspaceLiveRefreshPlan P) :
    WorkspaceState P C × LiveReport P :=
  let (s, report) := s.runLivePlan label ports plan
  match report.transition with
  | some (.failed _ _) => (if plan.isEmpty then s else s.coalescePending plan, report)
  | _ => (s, report)

def markStale (s : WorkspaceState P C) (plan : WorkspaceLiveRefreshPlan P) :
    WorkspaceState P C :=
  let plan := plan.withoutNotes
  if plan.isEmpty then s else s.coalescePending plan

def refreshStale (s : WorkspaceState P C) (label : String) (ports : LivePorts P C) :
    WorkspaceState P C × LiveReport P :=
  let plan := s.pending
  let s := { s with pending := {} }
  match plan.isEmpty, s.snapshot with
  | true, some snapshot => (s, { transition := some (.ready snapshot.generation) })
  | _, _ => s.runLivePlanRetainingFailure label ports plan

def execute (s : WorkspaceState P C) (result : Except WorkspaceFailure C) :
    WorkspaceState P C × LiveReport P :=
  let (generation, s) := s.allocateGeneration
  let (transition, s) := s.publish (result.map (⟨generation, ·⟩))
  (s, { allocated := some generation, transition := some transition })

def step (s : WorkspaceState P C) : LiveCall P C → WorkspaceState P C × LiveReport P
  | .markStale plan => (s.markStale plan, {})
  | .applyPlan label ports plan => s.runLivePlanRetainingFailure label ports plan
  | .refreshStale label ports => s.refreshStale label ports
  | .execute result => s.execute result
  | .publishSnapshot snapshot =>
    let (transition, s) := s.adoptSnapshotArc snapshot
    (s, { transition := some transition })

/-- The calls of a run, each with its report, and the state after them. -/
def run (s : WorkspaceState P C) :
    List (LiveCall P C) → List (LiveCall P C × LiveReport P) × WorkspaceState P C
  | [] => ([], s)
  | call :: calls =>
    let (s', report) := s.step call
    let (trace, final) := s'.run calls
    ((call, report) :: trace, final)

end WorkspaceState

/-! ## What a call can do -/

theorem LivePorts.build_generation {P C : Type} {ports : LivePorts P C}
    {current : Option (WorkspaceSnapshot C)} {label : String} {generation : ℕ}
    {plan : WorkspaceLiveRefreshPlan P} {built : WorkspaceSnapshot C × Bool}
    (h : ports.build current label generation plan = .ok built) :
    built.1.generation = generation := by
  have hmap : ∀ {r : Except WorkspaceFailure C} {snapshot : WorkspaceSnapshot C},
      r.map (⟨generation, ·⟩) = .ok snapshot → snapshot.generation = generation := by
    intro r snapshot hr
    cases r with
    | error e => cases hr
    | ok c => cases hr; rfl
  have hcode : ∀ code, ports.buildCodeSnapshot current label generation plan = .ok code →
      code.1.generation = generation := by
    intro code hc
    unfold LivePorts.buildCodeSnapshot at hc
    split_ifs at hc with hrescan hpaths
    · cases hr : ports.buildCompleteSnapshot generation with
      | error e => rw [hr] at hc; cases hc
      | ok snapshot => rw [hr] at hc; cases hc; exact hmap hr
    · cases current with
      | none => cases hc
      | some current => cases hc; rfl
    · split at hc
      · next snapshot hr =>
        cases hc
        unfold LivePorts.buildIncrementalPathsSnapshot at hr
        cases current with
        | none => cases hr
        | some current => exact hmap hr
      · cases hr : ports.buildCompleteSnapshot generation with
        | error e => rw [hr] at hc; cases hc
        | ok snapshot => rw [hr] at hc; cases hc; exact hmap hr
  unfold LivePorts.build at h
  cases hc : ports.buildCodeSnapshot current label generation plan with
  | error e => rw [hc] at h; cases h
  | ok code =>
    rw [hc] at h
    obtain ⟨snapshot, replaceWatcher⟩ := code
    cases hgit : plan.gitBase && !plan.rescan with
    | false =>
      simp only [hgit] at h
      cases h
      exact hcode _ hc
    | true =>
      simp only [hgit, if_true] at h
      have hoverlay : (ports.buildChangeOverlaySnapshot (some snapshot) label generation).bind
          (fun overlay => .ok (overlay, replaceWatcher)) = .ok built := h
      cases ho : ports.buildChangeOverlaySnapshot (some snapshot) label generation with
      | error e => rw [ho] at hoverlay; cases hoverlay
      | ok overlay => rw [ho] at hoverlay; cases hoverlay; exact hmap ho

open WorkspaceLiveRefreshPlan

namespace WorkspaceState

variable {P C : Type} [DecidableEq P]

/-- A run of a plan publishes a snapshot of the generation that it took, or leaves the snapshot
alone and puts the plan back. -/
theorem runLivePlanRetainingFailure_cases (s : WorkspaceState P C) (label : String)
    (ports : LivePorts P C) (plan : WorkspaceLiveRefreshPlan P) :
    ∃ replaceWatcher, ∃ s' : WorkspaceState P C, ∃ transition,
      s.runLivePlanRetainingFailure label ports plan = (s',
        ⟨some plan, some s.nextGeneration, some transition, replaceWatcher⟩) ∧
      s'.nextGeneration = (s.nextGeneration + 1) % 2 ^ 64 ∧
      ((transition = .ready s.nextGeneration ∧ s'.pending = s.pending ∧
          s'.snapshot.map (·.generation) = some s.nextGeneration) ∨
        ((∃ failure, transition = .failed failure (s.snapshot.map (·.generation))) ∧
          s'.snapshot = s.snapshot ∧
          s'.pending = if plan.isEmpty then s.pending else s.pending.coalesce plan)) := by
  unfold runLivePlanRetainingFailure runLivePlan
  dsimp only [allocateGeneration]
  cases hb : ports.build s.snapshot label s.nextGeneration plan with
  | ok built =>
    have hgen := LivePorts.build_generation hb
    refine ⟨_, _, _, rfl, rfl, Or.inl ⟨?_, rfl, ?_⟩⟩
    · exact congrArg _ hgen
    · exact congrArg some hgen
  | error failure =>
    refine ⟨_, _, _, rfl, ?_, Or.inr ⟨⟨failure, rfl⟩, ?_, ?_⟩⟩
    · split_ifs <;> rfl
    · split_ifs <;> rfl
    · split_ifs <;> rfl

/-- `refresh_stale` returns at once where nothing is pending, and otherwise runs the pending
plan on the state without it. -/
theorem refreshStale_cases (s : WorkspaceState P C) (label : String) (ports : LivePorts P C) :
    (s.pending.isEmpty = true ∧ ∃ snapshot, s.snapshot = some snapshot ∧
        s.refreshStale label ports =
          ({ s with pending := {} }, { transition := some (.ready snapshot.generation) })) ∨
      s.refreshStale label ports =
        ({ s with pending := {} } : WorkspaceState P C).runLivePlanRetainingFailure label ports
          s.pending := by
  unfold refreshStale
  dsimp only
  split
  · next snapshot hempty hs => exact Or.inl ⟨hempty, snapshot, hs, rfl⟩
  · exact Or.inr rfl

/-! ## Demands that are still owed -/

/-- The call marks the demand as stale, or runs a plan with it and fails. -/
def Leaves (entry : LiveCall P C × LiveReport P) (d : LiveDemand P) : Prop :=
  (∃ plan, entry.1 = .markStale plan ∧ plan.Demands d) ∨
    ∃ plan failure preserved, entry.2.plan = some plan ∧ plan.Demands d ∧
      entry.2.transition = some (.failed failure preserved)

/-- The call runs a plan with the demand and publishes. -/
def Serves (entry : LiveCall P C × LiveReport P) (d : LiveDemand P) : Prop :=
  ∃ plan generation, entry.2.plan = some plan ∧ plan.Demands d ∧
    entry.2.transition = some (.ready generation)

/-- The demand was left by a call of the trace, and no later call has served it. -/
def Owed (trace : List (LiveCall P C × LiveReport P)) (d : LiveDemand P) : Prop :=
  ∃ before entry later, trace = before ++ entry :: later ∧ Leaves entry d ∧
    ∀ e ∈ later, ¬Serves e d

section Runs

variable {s : WorkspaceState P C} {label : String} {ports : LivePorts P C}
  {plan : WorkspaceLiveRefreshPlan P} {call : LiveCall P C} {d : LiveDemand P}

theorem demands_run_of_pending (h : s.pending.Demands d) :
    (s.runLivePlanRetainingFailure label ports plan).1.pending.Demands d := by
  obtain ⟨w, s', transition, hrun, -, hcase⟩ :=
    s.runLivePlanRetainingFailure_cases label ports plan
  rw [hrun]
  rcases hcase with ⟨-, hpending, -⟩ | ⟨-, -, hpending⟩
  · rw [hpending]
    exact h
  · rw [hpending]
    split_ifs
    · exact h
    · exact demands_coalesce.mpr (Or.inl h)

theorem demands_run_of_plan (call : LiveCall P C) (h : plan.Demands d)
    (hserves : ¬Serves (call, (s.runLivePlanRetainingFailure label ports plan).2) d) :
    (s.runLivePlanRetainingFailure label ports plan).1.pending.Demands d := by
  obtain ⟨w, s', transition, hrun, -, hcase⟩ :=
    s.runLivePlanRetainingFailure_cases label ports plan
  rw [hrun] at hserves ⊢
  rcases hcase with ⟨rfl, -, -⟩ | ⟨-, -, hpending⟩
  · exact absurd ⟨plan, _, rfl, h, rfl⟩ hserves
  · have hne : ¬plan.isEmpty = true := fun he =>
      not_demands_of_isEmpty he d h
    rw [hpending, if_neg hne]
    exact demands_coalesce.mpr (Or.inr h)

theorem demands_run_of_leaves (hmark : ∀ p, call ≠ .markStale p)
    (h : Leaves (call, (s.runLivePlanRetainingFailure label ports plan).2) d) :
    (s.runLivePlanRetainingFailure label ports plan).1.pending.Demands d := by
  rcases h with ⟨p, hp, -⟩ | ⟨p, failure, preserved, hplan, hd, hfailed⟩
  · exact absurd hp (hmark p)
  · refine demands_run_of_plan call ?_ ?_
    · obtain ⟨w, s', transition, hrun, -⟩ := s.runLivePlanRetainingFailure_cases label ports plan
      rw [hrun] at hplan
      cases hplan
      exact hd
    · rintro ⟨_, generation, -, -, hready⟩
      rw [hfailed] at hready
      cases hready

/-- A call leaves the demand pending that it leaves, and what was pending and is not served. -/
theorem step_pending (h : Leaves (call, (s.step call).2) d ∨
    s.pending.Demands d ∧ ¬Serves (call, (s.step call).2) d) :
    (s.step call).1.pending.Demands d := by
  cases call with
  | markStale plan =>
    have hd : s.pending.Demands d ∨ plan.Demands d := by
      rcases h with (⟨p, hp, hd⟩ | ⟨_, _, _, hplan, -⟩) | h
      · cases hp
        exact Or.inr hd
      · cases hplan
      · exact Or.inl h.1
    simp only [step, markStale]
    split_ifs with hempty
    · refine hd.resolve_right fun hplan => ?_
      exact not_demands_of_isEmpty hempty d
        (demands_withoutNotes.mpr hplan)
    · rw [coalescePending, demands_coalesce, demands_withoutNotes]
      exact hd
  | applyPlan label ports plan =>
    rcases h with h | ⟨hd, -⟩
    · exact demands_run_of_leaves (by simp) h
    · exact demands_run_of_pending hd
  | refreshStale label ports =>
    have hstep : s.step (.refreshStale label ports) = s.refreshStale label ports := rfl
    rw [hstep] at h ⊢
    rcases s.refreshStale_cases label ports with ⟨hempty, snapshot, -, hnoop⟩ | hrun
    · rw [hnoop] at h
      rcases h with (⟨p, hp, -⟩ | ⟨_, _, _, hplan, -⟩) | ⟨hd, -⟩
      · cases hp
      · cases hplan
      · exact absurd hd (not_demands_of_isEmpty hempty d)
    · rw [hrun] at h ⊢
      rcases h with h | ⟨hd, hserves⟩
      · exact demands_run_of_leaves (by simp) h
      · exact demands_run_of_plan _ hd hserves
  | execute result =>
    have hpending : (s.step (.execute result)).1.pending = s.pending := by
      cases result <;> rfl
    rw [hpending]
    rcases h with (⟨p, hp, -⟩ | ⟨_, _, _, hplan, -⟩) | ⟨hd, -⟩
    · cases hp
    · cases result <;> cases hplan
    · exact hd
  | publishSnapshot snapshot =>
    rcases h with (⟨p, hp, -⟩ | ⟨_, _, _, hplan, -⟩) | ⟨hd, -⟩
    · cases hp
    · cases hplan
    · exact hd

theorem run_pending : ∀ (calls : List (LiveCall P C)) (s : WorkspaceState P C),
    (s.pending.Demands d ∧ ∀ e ∈ (s.run calls).1, ¬Serves e d) ∨ Owed (s.run calls).1 d →
      (s.run calls).2.pending.Demands d
  | [], s, h => by
    rcases h with ⟨hd, -⟩ | ⟨before, entry, later, htrace, -⟩
    · exact hd
    · simp [run] at htrace
  | call :: calls, s, h => by
    refine run_pending calls (s.step call).1 ?_
    rcases h with ⟨hd, hserves⟩ | ⟨before, entry, later, htrace, hleaves, hlater⟩
    · obtain ⟨hnow, hthen⟩ := forall_mem_cons.mp hserves
      exact Or.inl ⟨step_pending (Or.inr ⟨hd, hnow⟩), hthen⟩
    · -- The demand is left by this call, or by a later one.
      cases before with
      | nil =>
        obtain ⟨rfl, rfl⟩ := cons.inj htrace
        exact Or.inl ⟨step_pending (Or.inl hleaves), hlater⟩
      | cons e before =>
        exact Or.inr ⟨before, entry, later, (cons.inj htrace).2, hleaves, hlater⟩

/-- A demand that is owed is pending. -/
theorem owed_pending {calls : List (LiveCall P C)} (h : Owed (s.run calls).1 d) :
    (s.run calls).2.pending.Demands d :=
  run_pending calls s (Or.inr h)

end Runs

/-! ## Generations -/

section Generations

variable {s : WorkspaceState P C}

/-- A call that fails leaves the published snapshot as it is. -/
theorem step_failed {call : LiveCall P C} {failure : WorkspaceFailure} {preserved : Option ℕ}
    (h : (s.step call).2.transition = some (.failed failure preserved)) :
    (s.step call).1.snapshot = s.snapshot ∧ preserved = s.snapshot.map (·.generation) := by
  have hlive : ∀ (s : WorkspaceState P C) (label : String) (ports : LivePorts P C)
      (plan : WorkspaceLiveRefreshPlan P),
      (s.runLivePlanRetainingFailure label ports plan).2.transition =
        some (.failed failure preserved) →
      (s.runLivePlanRetainingFailure label ports plan).1.snapshot = s.snapshot ∧
        preserved = s.snapshot.map (·.generation) := by
    intro s label ports plan h
    obtain ⟨w, s', transition, hrun, -, hcase⟩ :=
      s.runLivePlanRetainingFailure_cases label ports plan
    rw [hrun] at h ⊢
    cases h
    rcases hcase with ⟨hready, -⟩ | ⟨⟨f, hfailed⟩, hsnapshot, -⟩
    · cases hready
    · cases hfailed
      exact ⟨hsnapshot, rfl⟩
  cases call with
  | markStale plan => cases h
  | applyPlan label ports plan => exact hlive s label ports plan h
  | refreshStale label ports =>
    have hstep : s.step (.refreshStale label ports) = s.refreshStale label ports := rfl
    rw [hstep] at h ⊢
    rcases s.refreshStale_cases label ports with ⟨-, snapshot, -, hnoop⟩ | hrun
    · rw [hnoop] at h
      cases h
    · rw [hrun] at h ⊢
      exact hlive _ label ports s.pending h
  | execute result =>
    cases result with
    | ok c => cases h
    | error f => cases h; exact ⟨rfl, rfl⟩
  | publishSnapshot snapshot => cases h

/-- No generation of the trace is the last one of a `u64`. -/
def Fits (trace : List (LiveCall P C × LiveReport P)) : Prop :=
  ∀ entry ∈ trace, (∀ g, entry.2.allocated = some g → g + 1 < 2 ^ 64) ∧
    ∀ snapshot, entry.1 = .publishSnapshot snapshot → snapshot.generation + 1 < 2 ^ 64

/-- The next generation lies above the one that is published. -/
def Above (s : WorkspaceState P C) : Prop :=
  ∀ snapshot, s.snapshot = some snapshot → snapshot.generation < s.nextGeneration

/-- One call : what it allocates is the next generation, and what it publishes, as what was
published before, lies below the next generation after it. -/
structure Advances (s s' : WorkspaceState P C) (report : LiveReport P) : Prop where
  next : s.nextGeneration ≤ s'.nextGeneration
  allocated : ∀ g, report.allocated = some g → g = s.nextGeneration
  published : ∀ g, report.transition = some (.ready g) → g < s'.nextGeneration
  above : s'.Above

theorem advances_runLivePlan (hs : s.Above) {label : String} {ports : LivePorts P C}
    {plan : WorkspaceLiveRefreshPlan P}
    (hfits : ∀ g, (s.runLivePlanRetainingFailure label ports plan).2.allocated = some g →
      g + 1 < 2 ^ 64) : Advances s (s.runLivePlanRetainingFailure label ports plan).1
      (s.runLivePlanRetainingFailure label ports plan).2 := by
  obtain ⟨w, s', transition, hrun, hnext, hcase⟩ :=
    s.runLivePlanRetainingFailure_cases label ports plan
  rw [hrun] at hfits ⊢
  dsimp only at hfits ⊢
  have hlt : s.nextGeneration + 1 < 2 ^ 64 := hfits _ rfl
  rw [Nat.mod_eq_of_lt hlt] at hnext
  refine ⟨by omega, fun g hg => (Option.some.inj hg).symm, fun g hg => ?_, fun snapshot hx => ?_⟩
  · cases hg
    rcases hcase with ⟨hready, -⟩ | ⟨⟨f, hfailed⟩, -⟩
    · cases hready
      omega
    · cases hfailed
  · rcases hcase with ⟨-, -, hgen⟩ | ⟨-, hsnapshot, -⟩
    · rw [hx] at hgen
      have heq : snapshot.generation = s.nextGeneration := Option.some.inj hgen
      omega
    · rw [hsnapshot] at hx
      have hbelow := hs snapshot hx
      omega

theorem step_advances (hs : s.Above) {call : LiveCall P C}
    (hfits : ∀ g, (s.step call).2.allocated = some g → g + 1 < 2 ^ 64)
    (hadopt : ∀ snapshot, call = .publishSnapshot snapshot →
      snapshot.generation + 1 < 2 ^ 64) : Advances s (s.step call).1 (s.step call).2 := by
  cases call with
  | markStale plan =>
    refine ⟨?_, by simp [step], by simp [step], ?_⟩
    · simp only [step, markStale]
      split_ifs <;> exact Nat.le_refl _
    · simp only [step, markStale]
      split_ifs <;> exact hs
  | applyPlan label ports plan => exact advances_runLivePlan hs hfits
  | refreshStale label ports =>
    have hstep : s.step (.refreshStale label ports) = s.refreshStale label ports := rfl
    rw [hstep] at hfits ⊢
    rcases s.refreshStale_cases label ports with ⟨-, snapshot, hx, hnoop⟩ | hrun
    · rw [hnoop]
      refine ⟨Nat.le_refl _, by simp, fun g hg => ?_, hs⟩
      cases hg
      exact hs snapshot hx
    · rw [hrun] at hfits ⊢
      have hadv := advances_runLivePlan (s := { s with pending := {} }) hs hfits
      exact ⟨hadv.next, hadv.allocated, hadv.published, hadv.above⟩
  | execute result =>
    have hlt : s.nextGeneration + 1 < 2 ^ 64 := hfits _ (by cases result <;> rfl)
    have hnext : (s.step (.execute result)).1.nextGeneration = s.nextGeneration + 1 := by
      rw [← Nat.mod_eq_of_lt hlt]
      cases result <;> rfl
    refine ⟨by omega, fun g hg => ?_, fun g hg => ?_, fun snapshot hx => ?_⟩
    · cases result <;> exact (Option.some.inj hg).symm
    · cases result with
      | ok c => cases hg; rw [hnext]; exact Nat.lt_succ_self _
      | error f => cases hg
    · cases result with
      | ok c => cases hx; rw [hnext]; exact Nat.lt_succ_self _
      | error f =>
        have hbelow := hs snapshot hx
        omega
  | publishSnapshot snapshot =>
    have hlt := hadopt snapshot rfl
    have hnext : (s.step (.publishSnapshot snapshot)).1.nextGeneration =
        max s.nextGeneration (snapshot.generation + 1) := by
      simp only [step, adoptSnapshotArc, Nat.mod_eq_of_lt hlt]
    refine ⟨by omega, fun g hg => (nomatch hg), fun g hg => ?_, fun x hx => ?_⟩
    · cases hg
      omega
    · cases hx
      omega

/-- A generation that is allocated exceeds those that were published before. -/
theorem run_generations (bound : ℕ) : ∀ (calls : List (LiveCall P C)) (s : WorkspaceState P C),
    s.Above → Fits (s.run calls).1 → bound < s.nextGeneration →
    ∀ before entry later, (s.run calls).1 = before ++ entry :: later →
      ∀ g, entry.2.allocated = some g →
        bound < g ∧ ∀ e ∈ before, ∀ g', e.2.transition = some (.ready g') → g' < g
  | [], s, _, _, _, before, entry, later, htrace, _, _ => by
    simp [run] at htrace
  | call :: calls, s, hs, hfits, hbound, before, entry, later, htrace, g, hg => by
    obtain ⟨hnow, hlater⟩ := forall_mem_cons.mp hfits
    have hadv := step_advances hs hnow.1 hnow.2
    cases before with
    | nil =>
      obtain ⟨rfl, -⟩ := cons.inj htrace
      have heq := hadv.allocated g hg
      exact ⟨by omega, by simp⟩
    | cons e before =>
      obtain ⟨rfl, htail⟩ := cons.inj htrace
      have hrest : ∀ b, b < (s.step call).1.nextGeneration → b < g ∧
          ∀ e ∈ before, ∀ g', e.2.transition = some (.ready g') → g' < g := fun b hb =>
        run_generations b calls (s.step call).1 hadv.above hlater hb before entry later
          htail g hg
      have hnext := hadv.next
      refine ⟨(hrest bound (by omega)).1, fun e' he' g' hg' => ?_⟩
      rcases mem_cons.mp he' with rfl | he'
      · exact (hrest g' (hadv.published g' hg')).1
      · exact (hrest bound (by omega)).2 e' he' g' hg'

end Generations

/-! ## Staleness is kept -/

/-- In every run from a new registry, what is owed is pending, a call that fails leaves the
published snapshot alone, and an allocated generation exceeds those that were published or
adopted before, as long as none is the last `u64`. Plans merge associatively, idempotently and
commutatively up to the order and the repetition of their paths, and keep their demands
through events. -/
theorem live_staleness : (∀ calls : List (LiveCall P C),
      let run := ({} : WorkspaceState P C).run calls
      (∀ d, Owed run.1 d → run.2.pending.Demands d) ∧
        (∀ call failure preserved,
          (run.2.step call).2.transition = some (.failed failure preserved) →
            (run.2.step call).1.snapshot = run.2.snapshot ∧
              preserved = run.2.snapshot.map (·.generation)) ∧
        (Fits run.1 → ∀ before entry later, run.1 = before ++ entry :: later →
          ∀ g, entry.2.allocated = some g →
            ∀ e ∈ before, ∀ g', e.2.transition = some (.ready g') → g' < g)) ∧
      (∀ p q r : WorkspaceLiveRefreshPlan P,
        (p.coalesce q).coalesce r = p.coalesce (q.coalesce r) ∧ p.coalesce p = p ∧
          (p.coalesce q).Same (q.coalesce p) ∧
          (p.sourcePaths.Nodup → q.sourcePaths.Nodup →
            (p.coalesce q).sourcePaths.Perm (q.coalesce p).sourcePaths)) ∧
      ∀ p : WorkspaceLiveRefreshPlan P, p.isEmpty = false →
        WorkspaceLiveRefreshPlan.fromEvent p.intoEvent =
          if p.rescan then { p with sourcePaths := [] } else p := by
  refine ⟨fun calls => ⟨fun d h => owed_pending h, fun call failure preserved h => step_failed h,
    fun hfits before entry later htrace g hg => ?_⟩, fun p q r => ?_, fun p h => ?_⟩
  · have hstart : ({} : WorkspaceState P C).Above := fun snapshot hx => (nomatch hx)
    exact (run_generations 0 calls {} hstart hfits Nat.one_pos before entry later htrace g hg).2
  · exact ⟨WorkspaceLiveRefreshPlan.coalesce_assoc p q r, WorkspaceLiveRefreshPlan.coalesce_self p,
      WorkspaceLiveRefreshPlan.coalesce_comm p q, WorkspaceLiveRefreshPlan.coalesce_perm⟩
  · exact WorkspaceLiveRefreshPlan.fromEvent_intoEvent h

end WorkspaceState

/-- A plan with a path twice keeps it twice when another plan is merged into it, and once when
it is merged into the other. And once a snapshot of the last generation is adopted, the counter
starts below it. -/
theorem live_staleness_repeated : (∃ p q : WorkspaceLiveRefreshPlan String,
      ¬(p.coalesce q).sourcePaths.Perm (q.coalesce p).sourcePaths) ∧
      ∃ (adopt refresh : LiveCall String Unit) (e f : LiveCall String Unit × LiveReport String),
        (({} : WorkspaceState String Unit).run [adopt, refresh]).1 = [e, f] ∧
          e.2.transition = some (.ready (2 ^ 64 - 1)) ∧ f.2.allocated = some 1 := by
  refine ⟨⟨WorkspaceLiveRefreshPlan.fromEvent (.sourcesChanged ["a.rs", "a.rs"]),
    WorkspaceLiveRefreshPlan.fromEvent .gitBaseChanged, by decide⟩,
    .publishSnapshot ⟨2 ^ 64 - 1, ()⟩, .execute (.ok ()), _, _, rfl, rfl, ?_⟩
  decide

end CodeMoniker
