import CodeMoniker.NotesDocument

/-!
# The notes file under concurrent writers

Any number of threads of any number of processes load, change and save one notes file. One
step is one file operation of one thread (`threadStep`). A save takes a lock file and then
compares the modification time of the file with the one that was read before the text. When
no two versions have the same modification time, the document that is saved was read from the
version that it replaces (`Inv.eq_base`).

What happened is recorded beside the state of the code : the versions of the file, the changes
that were saved, what the operations returned, and how often each process published a document.
-/

namespace CodeMoniker.Notes

/-- A text of the file and its modification time. The number counts the versions. -/
structure Version where
  number : ℕ
  text : String
  modified : ℕ
  deriving DecidableEq, Repr

abbrev Mutation := NotesDocument → Except String NotesDocument

inductive Operation
  | reload
  | mutate (f : Mutation)

/-- A loaded document. What it was read from is recorded in `base`. -/
structure NotesStore where
  loadedModified : Option ℕ
  document : NotesDocument
  base : Option Version

/-- When the document of an operation was the newest one : the number of the version, and how
often its process had published. -/
structure Mark where
  number : ℕ
  publications : ℕ
  deriving DecidableEq, Repr

/-- The path of a temporary file : the process and the time. -/
abbrev TempPath := ℕ × ℕ

/-- What a thread does next. -/
inductive Phase
  | idle
  | probe (op : Operation)
  | stat (op : Operation)
  | read (op : Operation) (stated : Version)
  | create (f : Mutation) (store : NotesStore) (attempts : ℕ)
  | check (f : Mutation) (store : NotesStore)
  | write (f : Mutation) (store : NotesStore)
  | rename (f : Mutation) (store : NotesStore) (temp : TempPath)
  | restat (f : Mutation) (store : NotesStore) (mark : Mark)
  | remove (f : Mutation) (result : Except String (NotesStore × Mark))
  | publish (op : Operation) (document : NotesDocument) (mark : Mark)

/-- A save : the version before, the change, and the version after. -/
structure Commit where
  before : Option Version
  mutation : Mutation
  written : Version

/-- What an operation returned, and what it saved. -/
structure Return where
  op : Operation
  result : Except String Unit
  wrote : Option Commit

structure Published where
  document : NotesDocument
  number : ℕ

structure State where
  file : Option Version
  lock : Option ℕ
  temps : TempPath → Option (String × ℕ)
  phase : ℕ → Phase
  published : ℕ → Published
  versions : List Version
  commits : List Commit
  wrote : ℕ → Option Commit
  returns : List Return
  publications : ℕ → ℕ

namespace State

/-- The number of the newest version, 0 without a file. -/
def current (s : State) : ℕ := (s.file.map (·.number)).getD 0

def setPhase (s : State) (t : ℕ) (phase : Phase) : State :=
  { s with phase := Function.update s.phase t phase }

def finish (s : State) (t : ℕ) (op : Operation) (result : Except String Unit) : State :=
  { s.setPhase t .idle with returns := s.returns ++ [⟨op, result, s.wrote t⟩] }

/-- Before the first operation, with the file that is there. -/
def initial (file : Option (String × ℕ)) (published : ℕ → NotesDocument) : State where
  file := file.map fun (text, modified) => ⟨1, text, modified⟩
  lock := none
  temps _ := none
  phase _ := .idle
  published p := ⟨published p, 0⟩
  versions := (file.map fun (text, modified) => ⟨1, text, modified⟩).toList
  commits := []
  wrote _ := none
  returns := []
  publications _ := 0

end State

/-- How often the lock file is tried. -/
def lockAttempts : ℕ := 50

section Steps

-- The TOML library, the path of the notes file, and the process of each thread.
variable (fromToml : String → Except String NotesDocument) (toToml : NotesDocument → String)
  (path : String) (process : ℕ → ℕ)

/-- A thread calls an operation. -/
def start (s : State) (t : ℕ) (op : Operation) : State :=
  { s.setPhase t (.probe op) with wrote := Function.update s.wrote t none }

/-- With the document read, a mutation is applied and a reload is done. -/
def loaded (s : State) (t : ℕ) (op : Operation) (store : NotesStore) : State :=
  match op with
  | .reload => s.setPhase t (.publish op store.document ⟨s.current, s.publications (process t)⟩)
  | .mutate f =>
    match f store.document with
    | .error e => s.finish t op (.error e)
    | .ok document => s.setPhase t (.create f { store with document := document } lockAttempts)

def staleError : String := s!"notes file changed since load: reload `{path}` before saving"

def lockedError : String := s!"notes file is locked by another writer: {path}"

def notFoundError : String := "No such file or directory (os error 2)"

/-- The next file operation of a thread. A temporary file is written under the time `nonce`, with
the modification time `modified`. -/
def threadStep (s : State) (t nonce modified : ℕ) : State :=
  match s.phase t with
  | .idle => s
  | .probe op =>
    match s.file with
    | some _ => s.setPhase t (.stat op)
    | none => loaded process s t op ⟨none, {}, none⟩
  | .stat op =>
    match s.file with
    | some version => s.setPhase t (.read op version)
    | none => s.finish t op (.error notFoundError)
  | .read op stated =>
    match s.file with
    | none => s.finish t op (.error notFoundError)
    | some version =>
      match fromToml version.text with
      | .error e => s.finish t op (.error e)
      | .ok document => loaded process s t op ⟨some stated.modified, document, some version⟩
  | .create f store attempts =>
    match s.lock with
    | none => { s.setPhase t (.check f store) with lock := some t }
    | some _ =>
      if attempts ≤ 1 then s.finish t (.mutate f) (.error (lockedError path))
      else s.setPhase t (.create f store (attempts - 1))
  | .check f store =>
    if s.file.map (·.modified) = store.loadedModified then s.setPhase t (.write f store)
    else s.setPhase t (.remove f (.error (staleError path)))
  | .write f store =>
    { s.setPhase t (.rename f store (process t, nonce)) with
      temps := Function.update s.temps (process t, nonce) (some (toToml store.document, modified)) }
  | .rename f store temp =>
    match s.temps temp with
    | none => s.setPhase t (.remove f (.error notFoundError))
    | some (text, modified) =>
      let version : Version := ⟨s.current + 1, text, modified⟩
      let commit : Commit := ⟨s.file, f, version⟩
      { s.setPhase t (.restat f store ⟨s.current + 1, s.publications (process t)⟩) with
        file := some version
        temps := Function.update s.temps temp none
        versions := s.versions ++ [version]
        commits := s.commits ++ [commit]
        wrote := Function.update s.wrote t (some commit) }
  | .restat f store mark =>
    match s.file with
    | none => s.setPhase t (.remove f (.error notFoundError))
    | some version =>
      s.setPhase t (.remove f (.ok ({ store with loadedModified := some version.modified }, mark)))
  | .remove f result =>
    match result with
    | .error e => { s.finish t (.mutate f) (.error e) with lock := none }
    | .ok (store, mark) =>
      { s.setPhase t (.publish (.mutate f) store.document mark) with lock := none }
  | .publish op document mark =>
    { s.finish t op (.ok ()) with
      published := Function.update s.published (process t) ⟨document, mark.number⟩
      publications := Function.update s.publications (process t) (s.publications (process t) + 1) }

/-- The states of a run. Operations are started as `allowed` says, and no two versions have the
same modification time. -/
inductive Reachable (allowed : State → ℕ → Operation → Prop) (init : State) : State → Prop
  | init : Reachable allowed init init
  | start {s : State} {t : ℕ} {op : Operation} : Reachable allowed init s → s.phase t = .idle →
      allowed s t op → Reachable allowed init (start s t op)
  | step {s : State} {t nonce modified : ℕ} : Reachable allowed init s →
      (∀ version ∈ s.versions, version.modified ≠ modified) →
      Reachable allowed init (threadStep fromToml toToml path process s t nonce modified)

end Steps

end CodeMoniker.Notes
