import CodeMoniker.NotesStore

/-!
# No note update is lost

`Inv` holds in every reachable state. A thread that holds the lock file finds the file as it
was when it compared the modification times, so every saved document is the change of the
version before it.
-/

namespace CodeMoniker.Notes

open List Function Option

section Invariant

variable (fromToml : String → Except String NotesDocument) (toToml : NotesDocument → String)
  (path : String) (process : ℕ → ℕ)

/-- The document of the file, the empty one without a file. -/
def documentOf (file : Option Version) : Except String NotesDocument :=
  match file with
  | none => .ok {}
  | some version => fromToml version.text

/-- Every save starts from the version that the save before it left. -/
def CommitChain : Option Version → List Commit → Option Version → Prop
  | first, [], last => first = last
  | first, commit :: commits, last =>
    commit.before = first ∧ CommitChain (some commit.written) commits last

/-- The document that is saved is the change of the document before. -/
def Commit.Applied (commit : Commit) : Prop :=
  ∃ d d', documentOf fromToml commit.before = .ok d ∧ commit.mutation d = .ok d' ∧
    commit.written.text = toToml d'

/-- The document is the one of the numbered version. -/
def Shows (s : State) (document : NotesDocument) (number : ℕ) : Prop :=
  number = 0 ∨ ∃ v ∈ s.versions, v.number = number ∧
    (fromToml v.text = .ok document ∨ v.text = toToml document)

/-- The modification time was read from the version of the text, or from one before it. -/
structure Stated (s : State) (store : NotesStore) : Prop where
  stated : (store.base = none ∧ store.loadedModified = none) ∨
    ∃ v ∈ s.versions, ∃ w ∈ s.versions, store.loadedModified = some v.modified ∧
      store.base = some w ∧ v.number ≤ w.number

/-- The document of the store is the change of what was read. -/
structure Loaded (s : State) (f : Mutation) (store : NotesStore) : Prop extends Stated s store where
  applied : ∃ d, documentOf fromToml store.base = .ok d ∧ f d = .ok store.document

/-- The thread has saved. -/
def Saved (s : State) (t : ℕ) (f : Mutation) : Prop :=
  ∃ commit ∈ s.commits, s.wrote t = some commit ∧ commit.mutation = f

/-- Nothing newer was published before the mark. -/
structure Marked (s : State) (t : ℕ) (document : NotesDocument) (mark : Mark) : Prop where
  current : mark.number ≤ s.current
  publications : mark.publications ≤ s.publications (process t)
  published : s.publications (process t) = mark.publications →
    (s.published (process t)).number ≤ mark.number
  shows : Shows fromToml toToml s document mark.number

/-- What is known of a thread in each phase. -/
def PhaseOk (s : State) (t : ℕ) : Phase → Prop
  | .idle => True
  | .probe _ | .stat _ => s.wrote t = none
  | .read _ stated => s.wrote t = none ∧ stated ∈ s.versions
  | .create f store _ => s.wrote t = none ∧ Loaded fromToml s f store
  | .check f store => s.wrote t = none ∧ Loaded fromToml s f store ∧ s.lock = some t
  | .write f store =>
    s.wrote t = none ∧ Loaded fromToml s f store ∧ s.lock = some t ∧ s.file = store.base
  | .rename f store temp =>
    s.wrote t = none ∧ Loaded fromToml s f store ∧ s.lock = some t ∧ s.file = store.base ∧
      ∃ modified, s.temps temp = some (toToml store.document, modified) ∧
        ∀ v ∈ s.versions, v.modified ≠ modified
  | .restat f store mark =>
    s.lock = some t ∧ Saved s t f ∧ Marked fromToml toToml process s t store.document mark ∧
      s.file.isSome
  | .remove _ (.error _) => s.lock = some t ∧ s.wrote t = none
  | .remove f (.ok (store, mark)) =>
    s.lock = some t ∧ Saved s t f ∧ Marked fromToml toToml process s t store.document mark
  | .publish op document mark =>
    Marked fromToml toToml process s t document mark ∧
      match op with
      | .reload => s.wrote t = none
      | .mutate f => Saved s t f

/-- An operation that returns an error has not saved, and a mutation that returns has. -/
def Return.Ok (s : State) (ret : Return) : Prop :=
  match ret.result, ret.op with
  | .error _, _ | .ok _, .reload => ret.wrote = none
  | .ok _, .mutate f => ∃ commit ∈ s.commits, ret.wrote = some commit ∧ commit.mutation = f

/-- What holds in every state of a run from `init`. -/
structure Inv (init s : State) : Prop where
  phase : ∀ t, PhaseOk fromToml toToml process s t (s.phase t)
  fileMem : ∀ v ∈ s.file, v ∈ s.versions
  newest : ∀ v ∈ s.versions, ∃ w ∈ s.file, v.number ≤ w.number
  modified : ∀ v ∈ s.versions, ∀ w ∈ s.versions, v.modified = w.modified → v = w
  number : ∀ v ∈ s.versions, ∀ w ∈ s.versions, v.number = w.number → v = w
  applied : ∀ commit ∈ s.commits, commit.Applied fromToml toToml
  chain : CommitChain init.file s.commits s.file
  returns : ∀ ret ∈ s.returns, ret.Ok s
  published : ∀ p, (s.published p).number ≤ s.current
  shows : ∀ p, Shows fromToml toToml s (s.published p).document (s.published p).number

/-- What a step of another thread leaves of what a thread knows. -/
structure Frame (s s' : State) (t : ℕ) : Prop where
  versions : s.versions ⊆ s'.versions
  commits : s.commits ⊆ s'.commits
  wrote : s'.wrote t = s.wrote t
  held : s.lock = some t → s'.lock = s.lock ∧ s'.file = s.file ∧ s'.temps = s.temps ∧
    s'.versions = s.versions
  current : s.current ≤ s'.current
  publications : s.publications (process t) ≤ s'.publications (process t)
  published : s'.publications (process t) = s.publications (process t) →
    s'.published (process t) = s.published (process t)

variable {fromToml toToml path process} {s s' init : State} {t : ℕ}

theorem CommitChain.append {last : Option Version} {commit : Commit} :
    ∀ {commits : List Commit} {first : Option Version}, CommitChain first commits last →
      commit.before = last → CommitChain first (commits ++ [commit]) (some commit.written)
  | [], _, h, hbefore => ⟨hbefore.trans h.symm, rfl⟩
  | _ :: _, _, h, hbefore => ⟨h.1, CommitChain.append h.2 hbefore⟩

theorem Shows.mono {document : NotesDocument} {number : ℕ}
    (h : Shows fromToml toToml s document number) (hversions : s.versions ⊆ s'.versions) :
    Shows fromToml toToml s' document number :=
  h.imp_right fun ⟨v, hv, hshows⟩ => ⟨v, hversions hv, hshows⟩

theorem Loaded.mono {f : Mutation} {store : NotesStore} (h : Loaded fromToml s f store)
    (hversions : s.versions ⊆ s'.versions) : Loaded fromToml s' f store where
  applied := h.applied
  stated := h.stated.imp_right fun ⟨v, hv, w, hw, hstated⟩ =>
    ⟨v, hversions hv, w, hversions hw, hstated⟩

theorem Saved.frame {f : Mutation} (h : Saved s t f) (hframe : Frame process s s' t) :
    Saved s' t f := by
  obtain ⟨commit, hcommit, hwrote, hf⟩ := h
  exact ⟨commit, hframe.commits hcommit, hframe.wrote.trans hwrote, hf⟩

theorem Marked.frame {document : NotesDocument} {mark : Mark}
    (h : Marked fromToml toToml process s t document mark) (hframe : Frame process s s' t) :
    Marked fromToml toToml process s' t document mark where
  current := h.current.trans hframe.current
  publications := h.publications.trans hframe.publications
  published heq := by
    have hsame : s'.publications (process t) = s.publications (process t) :=
      le_antisymm (heq.le.trans h.publications) hframe.publications
    rw [hframe.published hsame]
    exact h.published (hsame.symm.trans heq)
  shows := h.shows.mono hframe.versions

theorem PhaseOk.frame {phase : Phase} (h : PhaseOk fromToml toToml process s t phase)
    (hframe : Frame process s s' t) : PhaseOk fromToml toToml process s' t phase := by
  cases phase with
  | idle => trivial
  | probe | stat => exact hframe.wrote.trans h
  | read => exact ⟨hframe.wrote.trans h.1, hframe.versions h.2⟩
  | create => exact ⟨hframe.wrote.trans h.1, h.2.mono hframe.versions⟩
  | check =>
    obtain ⟨hwrote, hloaded, hlock⟩ := h
    exact ⟨hframe.wrote.trans hwrote, hloaded.mono hframe.versions, (hframe.held hlock).1.trans hlock⟩
  | write =>
    obtain ⟨hwrote, hloaded, hlock, hfile⟩ := h
    obtain ⟨hlock', hfile', -, -⟩ := hframe.held hlock
    exact ⟨hframe.wrote.trans hwrote, hloaded.mono hframe.versions, hlock'.trans hlock,
      hfile'.trans hfile⟩
  | rename =>
    obtain ⟨hwrote, hloaded, hlock, hfile, modified, htemp, hfresh⟩ := h
    obtain ⟨hlock', hfile', htemps, hversions⟩ := hframe.held hlock
    exact ⟨hframe.wrote.trans hwrote, hloaded.mono hframe.versions, hlock'.trans hlock,
      hfile'.trans hfile, modified, htemps ▸ htemp, hversions ▸ hfresh⟩
  | restat =>
    obtain ⟨hlock, hsaved, hmarked, hfile⟩ := h
    obtain ⟨hlock', hfile', -, -⟩ := hframe.held hlock
    exact ⟨hlock'.trans hlock, hsaved.frame hframe, hmarked.frame hframe, hfile' ▸ hfile⟩
  | remove f result =>
    rcases result with _ | ⟨store, mark⟩
    · exact ⟨(hframe.held h.1).1.trans h.1, hframe.wrote.trans h.2⟩
    · obtain ⟨hlock, hsaved, hmarked⟩ := h
      exact ⟨(hframe.held hlock).1.trans hlock, hsaved.frame hframe, hmarked.frame hframe⟩
  | publish op =>
    refine ⟨h.1.frame hframe, ?_⟩
    cases op with
    | reload => exact hframe.wrote.trans h.2
    | mutate => exact Saved.frame h.2 hframe

theorem Return.Ok.mono {ret : Return} (h : ret.Ok s) (hcommits : s.commits ⊆ s'.commits) :
    ret.Ok s' := by
  obtain ⟨op, result, wrote⟩ := ret
  cases result with
  | error => exact h
  | ok =>
    cases op with
    | reload => exact h
    | mutate =>
      obtain ⟨commit, hcommit, hwrote⟩ := h
      exact ⟨commit, hcommits hcommit, hwrote⟩

/-- With equal modification times, the file is still the version that was read. -/
theorem Inv.eq_base (h : Inv fromToml toToml process init s) {store : NotesStore}
    (hstated : Stated s store) (heq : s.file.map (·.modified) = store.loadedModified) :
    s.file = store.base := by
  rcases hstated.stated with ⟨hbase, hmodified⟩ | ⟨v, hv, w, hw, hmodified, hbase, hle⟩
  · rw [hmodified, map_eq_none_iff] at heq
    rw [heq, hbase]
  · rw [hmodified] at heq
    obtain ⟨x, hx, hxm⟩ := map_eq_some_iff.mp heq
    have hxmem := h.fileMem x hx
    obtain rfl := h.modified x hxmem v hv hxm
    -- The text was read after the time, and nothing is newer than the file.
    obtain ⟨y, hy, hwy⟩ := h.newest w hw
    obtain rfl : x = y := some.inj (hx.symm.trans hy)
    rw [hx, hbase, h.number x hxmem w hw (le_antisymm hle hwy)]

/-! ## One step -/

/-- A step that changes the phase of one thread only. -/
theorem Frame.of_eq (hversions : s'.versions = s.versions) (hcommits : s'.commits = s.commits)
    (hwrote : s'.wrote t = s.wrote t) (hfile : s'.file = s.file)
    (hheld : s.lock = some t → s'.lock = s.lock ∧ s'.temps = s.temps)
    (hpublications : s'.publications = s.publications) (hpublished : s'.published = s.published) :
    Frame process s s' t where
  versions := hversions ▸ Subset.refl _
  commits := hcommits ▸ Subset.refl _
  wrote := hwrote
  held hlock := ⟨(hheld hlock).1, hfile, (hheld hlock).2, hversions⟩
  current := by rw [State.current, State.current, hfile]
  publications := by rw [hpublications]
  published _ := by rw [hpublished]

section

variable (h : Inv fromToml toToml process init s)

include h

/-- A step that leaves the file, what was saved and what was published. -/
theorem Inv.of_phase {phase : Phase} (hphase : s'.phase = Function.update s.phase t phase)
    (hok : PhaseOk fromToml toToml process s' t phase)
    (hframe : ∀ t' ≠ t, Frame process s s' t') (hfile : s'.file = s.file)
    (hversions : s'.versions = s.versions) (hcommits : s'.commits = s.commits)
    (hreturns : ∀ ret ∈ s'.returns, ret ∈ s.returns ∨ ret.Ok s')
    (hpublished : s'.published = s.published) : Inv fromToml toToml process init s' where
  phase t' := by
    rw [hphase]
    by_cases ht : t' = t
    · subst ht
      rwa [update_self]
    · rw [update_of_ne ht]
      exact (h.phase t').frame (hframe t' ht)
  fileMem := by
    rw [hfile, hversions]
    exact h.fileMem
  newest := by
    rw [hfile, hversions]
    exact h.newest
  modified := by
    rw [hversions]
    exact h.modified
  number := by
    rw [hversions]
    exact h.number
  applied := by
    rw [hcommits]
    exact h.applied
  chain := by
    rw [hcommits, hfile]
    exact h.chain
  returns ret hret := by
    rcases hreturns ret hret with hold | hok
    · exact (h.returns ret hold).mono (hcommits ▸ Subset.refl _)
    · exact hok
  published p := by
    rw [hpublished, State.current, hfile]
    exact h.published p
  shows p := by
    rw [hpublished]
    exact (h.shows p).mono (hversions ▸ Subset.refl _)

theorem Inv.setPhase {phase : Phase} (hok : PhaseOk fromToml toToml process s t phase) :
    Inv fromToml toToml process init (s.setPhase t phase) :=
  h.of_phase rfl (hok.frame (.of_eq rfl rfl rfl rfl (fun _ => ⟨rfl, rfl⟩) rfl rfl))
    (fun _ _ => .of_eq rfl rfl rfl rfl (fun _ => ⟨rfl, rfl⟩) rfl rfl) rfl rfl rfl
    (fun _ hret => Or.inl hret) rfl

theorem Inv.finish {op : Operation}
    {result : Except String Unit} (hok : Return.Ok s ⟨op, result, s.wrote t⟩) :
    Inv fromToml toToml process init (s.finish t op result) := by
  refine h.of_phase rfl trivial
    (fun _ _ => .of_eq rfl rfl rfl rfl (fun _ => ⟨rfl, rfl⟩) rfl rfl) rfl rfl rfl
    (fun ret hret => ?_) rfl
  rcases mem_append.mp hret with hret | hret
  · exact Or.inl hret
  · rw [mem_singleton.mp hret]
    exact Or.inr (hok.mono (Subset.refl _))

/-- An operation starts. -/
theorem Inv.start (op : Operation) : Inv fromToml toToml process init (start s t op) := by
  have hwrote : (Notes.start s t op).wrote t = none := by
    simp [Notes.start]
  refine h.of_phase rfl hwrote (fun t' ht => ?_) rfl rfl rfl
    (fun _ hret => Or.inl hret) rfl
  exact .of_eq rfl rfl (update_of_ne ht _ _) rfl (fun _ => ⟨rfl, rfl⟩) rfl rfl

/-- The document was read. -/
theorem Inv.loaded {op : Operation} {store : NotesStore}
    (hwrote : s.wrote t = none) (hstated : Stated s store)
    (hbase : documentOf fromToml store.base = .ok store.document)
    (hshows : Shows fromToml toToml s store.document s.current) :
    Inv fromToml toToml process init (loaded process s t op store) := by
  unfold Notes.loaded
  cases op with
  | reload => exact h.setPhase ⟨⟨le_rfl, le_rfl, fun _ => h.published _, hshows⟩, hwrote⟩
  | mutate f =>
    cases hf : f store.document with
    | error e =>
      simp only [hf]
      exact h.finish hwrote
    | ok document =>
      simp only [hf]
      exact h.setPhase ⟨hwrote, ⟨hstated.stated⟩, store.document, hbase, hf⟩

/-- The lock file is created or removed by the thread. -/
theorem Inv.setLock {lock : Option ℕ} {phase : Phase} (hlock : ∀ t' ≠ t, s.lock ≠ some t')
    (hok : PhaseOk fromToml toToml process { s with lock := lock } t phase) :
    Inv fromToml toToml process init { s.setPhase t phase with lock := lock } := by
  have hframe : Frame process { s with lock := lock } { s.setPhase t phase with lock := lock } t :=
    .of_eq rfl rfl rfl rfl (fun _ => ⟨rfl, rfl⟩) rfl rfl
  refine h.of_phase rfl (hok.frame hframe) (fun t' ht => ?_) rfl rfl rfl
    (fun _ hret => Or.inl hret) rfl
  exact .of_eq rfl rfl rfl rfl (fun hheld => absurd hheld (hlock t' ht)) rfl rfl

end

theorem ne_of_lock {t' : ℕ} (h : s.lock = some t) (ht : t' ≠ t) : s.lock ≠ some t' :=
  fun h' => ht (some.inj (h'.symm.trans h))

section

variable (h : Inv fromToml toToml process init s)

include h

/-- The temporary file is written. -/
theorem Inv.write {f : Mutation} {store : NotesStore}
    {nonce modified : ℕ} (hphase : s.phase t = .write f store)
    (hfresh : ∀ v ∈ s.versions, v.modified ≠ modified) :
    Inv fromToml toToml process init (threadStep fromToml toToml path process s t nonce modified) := by
  have hok := h.phase t
  rw [hphase] at hok
  obtain ⟨hwrote, hloaded, hlock, hfile⟩ := hok
  unfold threadStep
  rw [hphase]
  refine h.of_phase rfl ⟨hwrote, hloaded.mono (Subset.refl _), hlock, hfile, modified, ?_, hfresh⟩
    (fun t' ht => ?_) rfl rfl rfl (fun _ hret => Or.inl hret) rfl
  · exact update_self _ _ _
  · exact .of_eq rfl rfl rfl rfl (fun hheld => absurd hheld (ne_of_lock hlock ht)) rfl rfl

/-- The temporary file becomes the notes file. -/
theorem Inv.rename {f : Mutation} {store : NotesStore}
    {temp : TempPath} {nonce modified : ℕ} (hphase : s.phase t = .rename f store temp) :
    Inv fromToml toToml process init (threadStep fromToml toToml path process s t nonce modified) := by
  have hok := h.phase t
  rw [hphase] at hok
  obtain ⟨hwrote, hloaded, hlock, hfile, m, htemp, hfresh⟩ := hok
  unfold threadStep
  rw [hphase]
  simp only [htemp]
  have hcurrent : ∀ v ∈ s.versions, v.number ≤ s.current := by
    intro v hv
    obtain ⟨w, hw, hle⟩ := h.newest v hv
    rw [State.current, Option.mem_def.mp hw]
    exact hle
  have hversions : s.versions ⊆ s.versions ++ [⟨s.current + 1, toToml store.document, m⟩] :=
    subset_append_left _ _
  have hnew : ∀ v ∈ s.versions ++ [(⟨s.current + 1, toToml store.document, m⟩ : Version)],
      v ∈ s.versions ∨ v = ⟨s.current + 1, toToml store.document, m⟩ := fun v hv =>
    (mem_append.mp hv).imp_right mem_singleton.mp
  have hshows : Shows fromToml toToml { s with versions := s.versions ++
      [⟨s.current + 1, toToml store.document, m⟩] } store.document (s.current + 1) :=
    Or.inr ⟨_, mem_append_right _ mem_cons_self, rfl, Or.inr rfl⟩
  refine ⟨fun t' => ?_, ?_, ?_, ?_, ?_, ?_, ?_, ?_, ?_, ?_⟩
  · by_cases ht : t' = t
    · subst ht
      simp only [State.setPhase, update_self]
      refine ⟨hlock, ⟨_, mem_append_right _ mem_cons_self, update_self _ _ _, rfl⟩,
        ⟨le_rfl, le_rfl, fun _ => (h.published _).trans (Nat.le_succ _), hshows⟩, rfl⟩
    · simp only [State.setPhase, update_of_ne ht]
      exact (h.phase t').frame ⟨hversions, subset_append_left _ _, update_of_ne ht _ _,
        fun hheld => absurd hheld (ne_of_lock hlock ht), Nat.le_succ _, le_rfl, fun _ => rfl⟩
  · rintro v hv
    obtain rfl := some.inj hv
    exact mem_append_right _ mem_cons_self
  · intro v hv
    refine ⟨_, rfl, ?_⟩
    rcases hnew v hv with hv | rfl
    · exact (hcurrent v hv).trans (Nat.le_succ _)
    · exact le_rfl
  · intro v hv w hw heq
    rcases hnew v hv with hv | rfl
    · rcases hnew w hw with hw | rfl
      · exact h.modified v hv w hw heq
      · exact absurd heq (hfresh v hv)
    · rcases hnew w hw with hw | rfl
      · exact absurd heq.symm (hfresh w hw)
      · rfl
  · intro v hv w hw heq
    rcases hnew v hv with hv | rfl
    · rcases hnew w hw with hw | rfl
      · exact h.number v hv w hw heq
      · exact absurd (hcurrent v hv) (by rw [heq]; exact Nat.not_succ_le_self _)
    · rcases hnew w hw with hw | rfl
      · exact absurd (hcurrent w hw) (by rw [← heq]; exact Nat.not_succ_le_self _)
      · rfl
  · intro commit hcommit
    rcases mem_append.mp hcommit with hcommit | hcommit
    · exact h.applied commit hcommit
    · obtain ⟨d, hd, hf⟩ := hloaded.applied
      rw [mem_singleton.mp hcommit]
      exact ⟨d, store.document, hfile ▸ hd, hf, rfl⟩
  · exact h.chain.append rfl
  · exact fun ret hret => (h.returns ret hret).mono (subset_append_left _ _)
  · exact fun p => (h.published p).trans (Nat.le_succ _)
  · exact fun p => (h.shows p).mono hversions

/-- The document is published. -/
theorem Inv.publish {op : Operation} {document : NotesDocument} {mark : Mark} {nonce modified : ℕ}
    (hphase : s.phase t = .publish op document mark) :
    Inv fromToml toToml process init (threadStep fromToml toToml path process s t nonce modified) := by
  have hok := h.phase t
  rw [hphase] at hok
  obtain ⟨hmarked, hop⟩ := hok
  unfold threadStep
  rw [hphase]
  simp only
  refine ⟨fun t' => ?_, h.fileMem, h.newest, h.modified, h.number, h.applied, h.chain, ?_, ?_, ?_⟩
  · by_cases ht : t' = t
    · subst ht
      simp only [State.finish, State.setPhase, update_self]
      trivial
    · simp only [State.finish, State.setPhase, update_of_ne ht]
      refine (h.phase t').frame ⟨Subset.refl _, Subset.refl _, rfl,
        fun _ => ⟨rfl, rfl, rfl, rfl⟩, le_rfl, ?_, fun heq => ?_⟩
      · by_cases hp : process t' = process t
        · simp only [hp, update_self]
          exact Nat.le_succ _
        · simp only [update_of_ne hp, le_rfl]
      · by_cases hp : process t' = process t
        · simp only [hp, update_self] at heq
          exact absurd heq (Nat.succ_ne_self _)
        · simp only [update_of_ne hp]
  · intro ret hret
    rcases mem_append.mp hret with hret | hret
    · exact (h.returns ret hret).mono (Subset.refl _)
    · rw [mem_singleton.mp hret]
      cases op with
      | reload => exact hop
      | mutate f =>
        obtain ⟨commit, hcommit, hwrote, hf⟩ := hop
        exact ⟨commit, hcommit, hwrote, hf⟩
  · intro p
    by_cases hp : p = process t
    · subst hp
      simp only [update_self]
      exact hmarked.current
    · simp only [update_of_ne hp]
      exact h.published p
  · intro p
    by_cases hp : p = process t
    · subst hp
      simp only [update_self]
      exact hmarked.shows
    · simp only [update_of_ne hp]
      exact h.shows p

/-- A step keeps the invariant. -/
theorem Inv.step {nonce modified : ℕ} (hfresh : ∀ v ∈ s.versions, v.modified ≠ modified) :
    Inv fromToml toToml process init (threadStep fromToml toToml path process s t nonce modified) := by
  have hok := h.phase t
  cases hphase : s.phase t with
  | write f store => exact h.write hphase hfresh
  | rename f store temp => exact h.rename hphase
  | publish op document mark => exact h.publish hphase
  | idle =>
    unfold threadStep
    rw [hphase]
    exact h
  | probe op =>
    rw [hphase] at hok
    unfold threadStep
    rw [hphase]
    cases hfile : s.file with
    | some version =>
      exact h.setPhase hok
    | none =>
      refine h.loaded hok ⟨Or.inl ⟨rfl, rfl⟩⟩ rfl (Or.inl ?_)
      rw [State.current, hfile]
      rfl
  | stat op =>
    rw [hphase] at hok
    unfold threadStep
    rw [hphase]
    cases hfile : s.file with
    | some version =>
      exact h.setPhase ⟨hok, h.fileMem version hfile⟩
    | none =>
      exact h.finish hok
  | read op stated =>
    rw [hphase] at hok
    obtain ⟨hwrote, hstated⟩ := hok
    unfold threadStep
    rw [hphase]
    cases hfile : s.file with
    | none =>
      exact h.finish hwrote
    | some version =>
      cases hparse : fromToml version.text with
      | error e =>
        simp only [hparse]
        exact h.finish hwrote
      | ok document =>
        simp only [hparse]
        have hmem := h.fileMem version hfile
        obtain ⟨w, hw, hle⟩ := h.newest stated hstated
        obtain rfl : version = w := some.inj (hfile.symm.trans hw)
        refine h.loaded hwrote ⟨Or.inr ⟨stated, hstated, version, hmem, rfl, rfl, hle⟩⟩ hparse
          (Or.inr ⟨version, hmem, ?_, Or.inl hparse⟩)
        rw [State.current, hfile]
        rfl
  | create f store attempts =>
    rw [hphase] at hok
    unfold threadStep
    rw [hphase]
    cases hlock : s.lock with
    | none =>
      refine h.setLock (fun t' _ => hlock ▸ (some_ne_none t').symm) ?_
      exact ⟨hok.1, hok.2.mono (Subset.refl _), rfl⟩
    | some holder =>
      simp only
      split_ifs
      · exact h.finish hok.1
      · exact h.setPhase hok
  | check f store =>
    rw [hphase] at hok
    obtain ⟨hwrote, hloaded, hlock⟩ := hok
    unfold threadStep
    rw [hphase]
    simp only
    split_ifs with heq
    · exact h.setPhase ⟨hwrote, hloaded, hlock, h.eq_base hloaded.toStated heq⟩
    · exact h.setPhase ⟨hlock, hwrote⟩
  | restat f store mark =>
    rw [hphase] at hok
    obtain ⟨hlock, hsaved, hmarked, hfile⟩ := hok
    unfold threadStep
    rw [hphase]
    obtain ⟨version, hversion⟩ := isSome_iff_exists.mp hfile
    simp only [hversion]
    exact h.setPhase ⟨hlock, hsaved, hmarked⟩
  | remove f result =>
    rw [hphase] at hok
    unfold threadStep
    rw [hphase]
    cases result with
    | error e =>
      obtain ⟨hlock, hwrote⟩ := hok
      refine h.of_phase rfl trivial (fun t' ht => ?_) rfl rfl rfl (fun ret hret => ?_) rfl
      · exact .of_eq rfl rfl rfl rfl (fun hheld => absurd hheld (ne_of_lock hlock ht)) rfl rfl
      · rcases mem_append.mp hret with hret | hret
        · exact Or.inl hret
        · rw [mem_singleton.mp hret]
          exact Or.inr hwrote
    | ok saved =>
      obtain ⟨store, mark⟩ := saved
      obtain ⟨hlock, hsaved, hmarked⟩ := hok
      refine h.setLock (fun t' ht => ne_of_lock hlock ht) ⟨?_, hsaved⟩
      exact ⟨hmarked.current, hmarked.publications, hmarked.published, hmarked.shows⟩

end

/-! ## Runs -/

variable {allowed : State → ℕ → Operation → Prop} {file : Option (String × ℕ)}
  {documents : ℕ → NotesDocument}

theorem inv_initial : Inv fromToml toToml process (State.initial file documents)
    (State.initial file documents) where
  phase _ := trivial
  fileMem v hv := by
    cases file with
    | none => cases hv
    | some pair =>
      obtain rfl := some.inj hv
      exact mem_singleton_self _
  newest v hv := by
    cases file with
    | none => cases hv
    | some pair =>
      obtain rfl := mem_singleton.mp hv
      exact ⟨_, rfl, le_rfl⟩
  modified v hv w hw _ := by
    cases file with
    | none => cases hv
    | some pair => rw [mem_singleton.mp hv, mem_singleton.mp hw]
  number v hv w hw _ := by
    cases file with
    | none => cases hv
    | some pair => rw [mem_singleton.mp hv, mem_singleton.mp hw]
  applied _ h := nomatch h
  chain := rfl
  returns _ h := nomatch h
  published _ := Nat.zero_le _
  shows _ := Or.inl rfl

/-- The invariant holds in every state of every run. -/
theorem inv_of_reachable
    (h : Reachable fromToml toToml path process allowed (State.initial file documents) s) :
    Inv fromToml toToml process (State.initial file documents) s := by
  induction h with
  | init => exact inv_initial
  | start _ _ _ ih => exact ih.start _
  | step _ hfresh ih => exact ih.step hfresh

end Invariant

end CodeMoniker.Notes
