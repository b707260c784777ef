import CodeMoniker.StableSort

/-!
# The daemon registry

Any number of daemons start, run, expire and stop on one registry directory. One step is one
file operation of one daemon (`daemonStep`). A daemon lists the entries, removes the expired
ones that share a root with it, claims the file of its configuration, and writes a heartbeat
into it until it stops.

Files are published complete, by a link or a rename of a private temporary file, so a file
holds an entry or is missing. The claims are recorded in their order, and where a daemon listed
the entries in it.
-/

namespace CodeMoniker.Registry

/-- The fields of an entry that the registry reads. -/
structure DaemonRegistryEntry where
  workspaceRoot : String
  workspaceRoots : List String
  endpoint : String
  token : String
  pid : ℕ
  heartbeatUnixMs : ℕ
  deriving DecidableEq, Repr

def daemonRegistryHeartbeatTimeoutMs : ℕ := 15000

def daemonRegistryHeartbeatExpired (entry : DaemonRegistryEntry) (now : ℕ) : Bool :=
  entry.heartbeatUnixMs = 0 || now - entry.heartbeatUnixMs > daemonRegistryHeartbeatTimeoutMs

abbrev RegistryPath := String

/-- A daemon process : the path and the roots of its configuration, and what it registers. -/
structure Daemon where
  path : RegistryPath
  roots : List String
  workspaceRoot : String
  endpoint : String
  token : String
  pid : ℕ

variable (daemon : Daemon)

def Daemon.entry (heartbeat : ℕ) : DaemonRegistryEntry where
  workspaceRoot := daemon.workspaceRoot
  workspaceRoots := daemon.roots
  endpoint := daemon.endpoint
  token := daemon.token
  pid := daemon.pid
  heartbeatUnixMs := heartbeat

/-- A section under the lock of a registry file. -/
inductive Job
  | conflict (path : RegistryPath) (entry : DaemonRegistryEntry)
      (todo : List (RegistryPath × DaemonRegistryEntry))
  | heartbeat (ms : ℕ)
  | stop (error : Option String)

def Job.path (daemon : Daemon) : Job → RegistryPath
  | conflict path _ _ => path
  | heartbeat _ | stop _ => daemon.path

/-- The token and the process that the entry in the file must have. -/
def Job.own : Job → String × ℕ
  | conflict _ entry _ => (entry.token, entry.pid)
  | heartbeat _ | stop _ => (daemon.token, daemon.pid)

/-- What a daemon does next. -/
inductive Phase
  | new
  | list
  | read (todo : List RegistryPath) (found : List (RegistryPath × DaemonRegistryEntry))
  | check (todo : List (RegistryPath × DaemonRegistryEntry))
  | locking (job : Job)
  | comparing (job : Job)
  | acting (job : Job)
  | releasing (job : Job) (owned : Bool)
  | claim
  | refused
  | running
  | exited (error : Option String)

/-- The process runs. -/
def Phase.Alive : Phase → Prop
  | new | exited _ => False
  | _ => True

def Phase.Exited : Phase → Prop
  | exited _ => True
  | _ => False

/-- What a running daemon does : `maintain_registry_claim`, or it is told to stop. -/
inductive Action
  | check
  | heartbeat
  | stop

/-- What a step takes from outside : the paths of the directory, whether a process with the
identifier exists, and what a running daemon does. -/
structure Input where
  listing : List RegistryPath
  pidAlive : Bool
  action : Action

structure State where
  files : RegistryPath → Option DaemonRegistryEntry
  locks : RegistryPath → Option ℕ
  now : ℕ
  created : ℕ → ℕ
  phase : ℕ → Phase
  claims : List ℕ
  listed : ℕ → ℕ

namespace State

def initial (now : ℕ) : State where
  files _ := none
  locks _ := none
  now := now
  created _ := 0
  phase _ := .new
  claims := []
  listed _ := 0

def setPhase (s : State) (d : ℕ) (phase : Phase) : State :=
  { s with phase := Function.update s.phase d phase }

/-- A process ends, and its locks with it. -/
def kill (s : State) (d : ℕ) : State :=
  { s.setPhase d (.exited (some "killed")) with
    locks := fun path => if s.locks path = some d then none else s.locks path }

end State

def notFoundError : String := "No such file or directory (os error 2)"

variable (entry : DaemonRegistryEntry)

def servedError : String :=
  s!"a daemon already serves {entry.workspaceRoot} (pid {entry.pid}, endpoint {entry.endpoint}); stop it before starting another"

def claimedError : String :=
  s!"a daemon already claims {entry.workspaceRoot} (pid {entry.pid}, endpoint {entry.endpoint}); wait for it or stop it before starting another"

def appearedError : String :=
  s!"a daemon registry claim appeared while starting {daemon.workspaceRoot}"

def missingError : String := "the registry entry disappeared"

def replacedError (pid : ℕ) : String := s!"the registry entry was replaced by daemon pid {pid}"

def rejectedError : String :=
  "the registry heartbeat was rejected because this daemon no longer owns the claim"

def lostError (failure : String) : String :=
  s!"daemon registry claim lost for {daemon.workspaceRoot}: {failure}"

def sharesRoot : Bool :=
  entry.workspaceRoots.any (· ∈ daemon.roots)

/-- After the section under the lock. -/
def Job.next (job : Job) (owned : Bool) : Phase :=
  match job with
  | conflict _ _ todo => .check todo
  | heartbeat _ =>
    if owned then .running else .locking (.stop (some (lostError daemon rejectedError)))
  | stop error => .exited error

section Steps

variable (daemons : ℕ → Daemon)

/-- The next file operation of a daemon. -/
def daemonStep (s : State) (d : ℕ) (input : Input) : State :=
  match s.phase d with
  | .new => { s.setPhase d .list with created := Function.update s.created d s.now }
  | .list =>
    { s.setPhase d (.read input.listing []) with
      listed := Function.update s.listed d s.claims.length }
  | .read [] found => s.setPhase d (.check (StableSort.stableSort (·.2.workspaceRoot) found))
  | .read (path :: todo) found =>
    match s.files path with
    | none => s.setPhase d (.exited (some notFoundError))
    | some entry => s.setPhase d (.read todo (found ++ [(path, entry)]))
  | .check [] => s.setPhase d .claim
  | .check ((path, entry) :: todo) =>
    if !sharesRoot (daemons d) entry then s.setPhase d (.check todo)
    else if input.pidAlive && !daemonRegistryHeartbeatExpired entry s.now then
      s.setPhase d (.exited (some (servedError entry)))
    else s.setPhase d (.locking (.conflict path entry todo))
  | .locking job =>
    match s.locks (job.path (daemons d)) with
    | some _ => s
    | none =>
      { s.setPhase d (.comparing job) with
        locks := Function.update s.locks (job.path (daemons d)) (some d) }
  | .comparing job =>
    match s.files (job.path (daemons d)) with
    | none => s.setPhase d (.releasing job false)
    | some current =>
      if (current.token, current.pid) = job.own (daemons d) then s.setPhase d (.acting job)
      else s.setPhase d (.releasing job false)
  | .acting job =>
    let entry := match job with
      | .heartbeat ms => some ((daemons d).entry ms)
      | .conflict .. | .stop _ => none
    { s.setPhase d (.releasing job true) with
      files := Function.update s.files (job.path (daemons d)) entry }
  | .releasing job owned =>
    { s.setPhase d (job.next (daemons d) owned) with
      locks := Function.update s.locks (job.path (daemons d)) none }
  | .claim =>
    match s.files (daemons d).path with
    | some _ => s.setPhase d .refused
    | none =>
      { s.setPhase d .running with
        files := Function.update s.files (daemons d).path
          (some ((daemons d).entry (s.created d)))
        claims := s.claims ++ [d] }
  | .refused =>
    match s.files (daemons d).path with
    | some existing => s.setPhase d (.exited (some (claimedError existing)))
    | none => s.setPhase d (.exited (some (appearedError (daemons d))))
  | .running =>
    match input.action with
    | .stop => s.setPhase d (.locking (.stop none))
    | .heartbeat => s.setPhase d (.locking (.heartbeat s.now))
    | .check =>
      match s.files (daemons d).path with
      | none => s.setPhase d (.locking (.stop (some (lostError (daemons d) missingError))))
      | some current =>
        if current.pid ≠ (daemons d).pid || current.token ≠ (daemons d).token then
          s.setPhase d (.locking (.stop (some (lostError (daemons d) (replacedError current.pid)))))
        else s
  | .exited _ => s

/-- What the operating system answers : the listing has the files that are there, and a process
identifier of a daemon that runs exists. -/
structure Answers (s : State) (d : ℕ) (input : Input) : Prop where
  listing : s.phase d = .list → ∀ path, path ∈ input.listing ↔ (s.files path).isSome
  pidAlive : ∀ path entry todo, s.phase d = .check ((path, entry) :: todo) →
    ∀ d', (s.phase d').Alive → (daemons d').pid = entry.pid → input.pidAlive = true

/-- The states of a run whose steps all satisfy `allowed`. Time passes and processes end between
the steps. -/
inductive Reachable (allowed : State → ℕ → Prop) : State → Prop
  | initial (now : ℕ) : Reachable allowed (.initial now)
  | step {s : State} {d : ℕ} {input : Input} : Reachable allowed s → Answers daemons s d input →
      allowed s d → Reachable allowed (daemonStep daemons s d input)
  | tick {s : State} (ms : ℕ) : Reachable allowed s → Reachable allowed { s with now := s.now + ms }
  | kill {s : State} (d : ℕ) : Reachable allowed s → Reachable allowed (s.kill d)

end Steps

end CodeMoniker.Registry
