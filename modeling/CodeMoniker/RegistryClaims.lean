import CodeMoniker.DaemonRegistry

/-!
# The claims of the daemon registry

`Inv` holds in every state of every run : a file holds the entry of a daemon that claimed it,
and a daemon compares and changes a file under its lock, so it changes only what it compared.

Two things are not under the lock. A scan decides on an entry that it read before, and its
owner may have written a heartbeat since. A daemon claims its own file after the scan of the
others, and a daemon that shares a root with it may have claimed another file since.
`Careful` excludes the two.
-/

namespace CodeMoniker.Registry

open List Function
open Option (some.inj)

section Invariant

variable (daemons : ℕ → Daemon)

/-- The file of the daemon holds its entry. -/
def Owns (s : State) (d : ℕ) : Prop :=
  ∃ entry, s.files (daemons d).path = some entry ∧ entry.token = (daemons d).token

/-- No two daemons have one token. -/
def DistinctTokens : Prop := Injective fun d => (daemons d).token

/-- The configurations of the daemons have a common root. -/
def SharesRoot (d d' : ℕ) : Prop := ∃ root ∈ (daemons d).roots, root ∈ (daemons d').roots

/-- The entry is the one of a daemon that claimed the file, with some heartbeat. -/
def Claimed (s : State) (path : RegistryPath) (entry : DaemonRegistryEntry) : Prop :=
  ∃ d ∈ s.claims, (daemons d).path = path ∧ entry = (daemons d).entry entry.heartbeatUnixMs

/-- The owner of the entry has ended, or the entry is expired. -/
def Lapsed (s : State) (entry : DaemonRegistryEntry) : Prop :=
  ∀ d, entry.token = (daemons d).token →
    (s.phase d).Exited ∨ daemonRegistryHeartbeatExpired entry s.now = true

/-- What is known of a section under the lock. -/
def JobOk (s : State) (d : ℕ) : Job → Prop
  | .conflict path entry todo => d ∉ s.claims ∧ Claimed daemons s path entry ∧
      (∀ x ∈ todo, Claimed daemons s x.1 x.2) ∧ Lapsed daemons s entry
  | .heartbeat _ | .stop _ => d ∈ s.claims

/-- What is known of a daemon in each phase. -/
def PhaseOk (s : State) (d : ℕ) : Phase → Prop
  | .new | .list | .claim | .refused => d ∉ s.claims
  | .read _ found | .check found => d ∉ s.claims ∧ ∀ x ∈ found, Claimed daemons s x.1 x.2
  | .locking job => JobOk daemons s d job
  | .comparing job | .releasing job _ =>
    JobOk daemons s d job ∧ s.locks (job.path (daemons d)) = some d
  | .acting job => JobOk daemons s d job ∧ s.locks (job.path (daemons d)) = some d ∧
      ∃ current, s.files (job.path (daemons d)) = some current ∧
        (current.token, current.pid) = job.own (daemons d)
  | .running => d ∈ s.claims
  | .exited _ => True

/-- The scan has the file of the daemon still before it. -/
def Sees (daemon : Daemon) : Phase → Prop
  | .read todo found => daemon.path ∈ todo ∨ ∃ ms, (daemon.path, daemon.entry ms) ∈ found
  | .check todo | .releasing (.conflict _ _ todo) _ => ∃ ms, (daemon.path, daemon.entry ms) ∈ todo
  | .locking (.conflict path entry todo) | .comparing (.conflict path entry todo)
  | .acting (.conflict path entry todo) =>
    ∃ ms, (path, entry) = (daemon.path, daemon.entry ms) ∨
      (daemon.path, daemon.entry ms) ∈ todo
  | .claim => False
  | _ => True

/-- What holds in every state of every run. -/
structure Inv (s : State) : Prop where
  phase : ∀ d, PhaseOk daemons s d (s.phase d)
  files : ∀ path entry, s.files path = some entry → Claimed daemons s path entry
  listed : ∀ d, s.listed d ≤ s.claims.length
  sees : ∀ d d', SharesRoot daemons d d' → Owns daemons s d' →
    d' ∉ s.claims.drop (s.listed d) → Sees (daemons d') (s.phase d)

/-- What a step of another daemon leaves of what a daemon knows. -/
structure Frame (s s' : State) (d : ℕ) : Prop where
  claims : s.claims ⊆ s'.claims
  unclaimed : d ∉ s.claims → d ∉ s'.claims
  locks : ∀ path, s.locks path = some d → s'.locks path = some d
  files : ∀ path entry, s.locks path = some d → s.files path = some entry →
    s'.files path = some entry
  exited : ∀ d', (s.phase d').Exited → (s'.phase d').Exited
  now : s.now ≤ s'.now

variable {daemons} {s s' : State} {d : ℕ}

theorem SharesRoot.symm {d' : ℕ} (h : SharesRoot daemons d d') : SharesRoot daemons d' d := by
  obtain ⟨root, hd, hd'⟩ := h
  exact ⟨root, hd', hd⟩

theorem Claimed.mono {path : RegistryPath} {entry : DaemonRegistryEntry}
    (h : Claimed daemons s path entry) (hclaims : s.claims ⊆ s'.claims) :
    Claimed daemons s' path entry := by
  obtain ⟨d, hd, hpath, hentry⟩ := h
  exact ⟨d, hclaims hd, hpath, hentry⟩

/-- An expired entry stays expired. -/
theorem expired_mono {entry : DaemonRegistryEntry} {now now' : ℕ} (hnow : now ≤ now')
    (h : daemonRegistryHeartbeatExpired entry now = true) :
    daemonRegistryHeartbeatExpired entry now' = true := by
  simp only [daemonRegistryHeartbeatExpired, Bool.or_eq_true, decide_eq_true_eq] at h ⊢
  omega

theorem Lapsed.mono {entry : DaemonRegistryEntry} (h : Lapsed daemons s entry)
    (hexited : ∀ d', (s.phase d').Exited → (s'.phase d').Exited) (hnow : s.now ≤ s'.now) :
    Lapsed daemons s' entry :=
  fun d hd => (h d hd).imp (hexited d) (expired_mono hnow)

theorem JobOk.frame {job : Job} (h : JobOk daemons s d job) (hframe : Frame s s' d) :
    JobOk daemons s' d job := by
  cases job with
  | conflict path entry todo =>
    obtain ⟨hunclaimed, hentry, htodo, hlapsed⟩ := h
    exact ⟨hframe.unclaimed hunclaimed, hentry.mono hframe.claims,
      fun x hx => (htodo x hx).mono hframe.claims, hlapsed.mono hframe.exited hframe.now⟩
  | heartbeat | stop => exact hframe.claims h

theorem PhaseOk.frame {phase : Phase} (h : PhaseOk daemons s d phase) (hframe : Frame s s' d) :
    PhaseOk daemons s' d phase := by
  cases phase with
  | new | list | claim | refused => exact hframe.unclaimed h
  | read | check =>
    exact ⟨hframe.unclaimed h.1, fun x hx => (h.2 x hx).mono hframe.claims⟩
  | locking => exact JobOk.frame h hframe
  | comparing | releasing => exact ⟨h.1.frame hframe, hframe.locks _ h.2⟩
  | acting job =>
    obtain ⟨hjob, hlock, current, hcurrent, hown⟩ := h
    exact ⟨hjob.frame hframe, hframe.locks _ hlock, current,
      hframe.files _ current hlock hcurrent, hown⟩
  | running => exact hframe.claims h
  | exited => trivial

/-- A step of a daemon that claims nothing and publishes nothing of another one. -/
theorem Inv.of_step (h : Inv daemons s) {phase : Phase} (hphase : s'.phase = update s.phase d phase)
    (hexited : (s.phase d).Exited → phase.Exited) (hclaims : s'.claims = s.claims)
    (hok : PhaseOk daemons s' d phase) (hnow : s'.now = s.now)
    (hlocks : ∀ d' ≠ d, ∀ path, s.locks path = some d' → s'.locks path = some d' ∧
      s'.files path = s.files path)
    (hfiles : ∀ path entry, s'.files path = some entry → Claimed daemons s path entry)
    (howns : ∀ d', Owns daemons s' d' → Owns daemons s d')
    (hlisted : ∀ d' ≠ d, s'.listed d' = s.listed d') (hself : s'.listed d ≤ s.claims.length)
    (hsees : ∀ d', SharesRoot daemons d d' → Owns daemons s' d' →
      d' ∉ s.claims.drop (s'.listed d) → Sees (daemons d') phase) : Inv daemons s' where
  phase d' := by
    rw [hphase]
    by_cases hd : d' = d
    · subst hd
      rwa [update_self]
    · rw [update_of_ne hd]
      refine (h.phase d').frame ⟨hclaims ▸ Subset.refl _, fun hnot => hclaims ▸ hnot,
        fun path hlock => (hlocks d' hd path hlock).1, fun path entry hlock hfile => ?_,
        fun t ht => ?_, hnow.ge⟩
      · rw [(hlocks d' hd path hlock).2, hfile]
      · rw [hphase]
        by_cases htd : t = d
        · subst htd
          rw [update_self]
          exact hexited ht
        · rwa [update_of_ne htd]
  files path entry hfile := (hfiles path entry hfile).mono (hclaims ▸ Subset.refl _)
  listed d' := by
    rw [hclaims]
    by_cases hd : d' = d
    · exact hd ▸ hself
    · rw [hlisted d' hd]
      exact h.listed d'
  sees t d' hshares hown hnot := by
    rw [hphase]
    rw [hclaims] at hnot
    by_cases ht : t = d
    · subst ht
      rw [update_self]
      exact hsees d' hshares hown hnot
    · rw [update_of_ne ht]
      rw [hlisted t ht] at hnot
      exact h.sees t d' hshares (howns d' hown) hnot

/-- A daemon that runs in some phase has not exited, whatever phase follows. -/
theorem exited_of_running {current : Phase} (hphase : s.phase d = current)
    (hcurrent : ¬current.Exited) (phase : Phase) : (s.phase d).Exited → phase.Exited :=
  fun hexited => absurd (hphase ▸ hexited) hcurrent

/-- What the invariant says of a daemon in a phase. -/
theorem Inv.at (h : Inv daemons s) {current : Phase} (hphase : s.phase d = current)
    (hcurrent : ¬current.Exited) : (∀ phase : Phase, (s.phase d).Exited → phase.Exited) ∧
      PhaseOk daemons s d current ∧ ∀ d', SharesRoot daemons d d' → Owns daemons s d' →
        d' ∉ s.claims.drop (s.listed d) → Sees (daemons d') current :=
  ⟨exited_of_running hphase hcurrent, hphase ▸ h.phase d, hphase ▸ h.sees d⟩

/-- A step that changes the phase only. -/
theorem Inv.setPhase (h : Inv daemons s) {phase : Phase}
    (hexited : (s.phase d).Exited → phase.Exited) (hok : PhaseOk daemons (s.setPhase d phase) d phase)
    (hsees : ∀ d', SharesRoot daemons d d' → Owns daemons s d' →
      d' ∉ s.claims.drop (s.listed d) → Sees (daemons d') phase) :
    Inv daemons (s.setPhase d phase) :=
  h.of_step rfl hexited rfl hok rfl (fun _ _ _ hlock => ⟨hlock, rfl⟩) h.files (fun _ hown => hown)
    (fun _ _ => rfl) (h.listed d) hsees

theorem Frame.setPhase {phase : Phase} (hexited : (s.phase d).Exited → phase.Exited) :
    Frame s (s.setPhase d phase) d where
  claims := Subset.refl _
  unclaimed h := h
  locks _ h := h
  files _ _ _ h := h
  exited t ht := by
    by_cases htd : t = d
    · subst htd
      simp only [State.setPhase, update_self]
      exact hexited ht
    · simpa only [State.setPhase, update_of_ne htd] using ht
  now := le_rfl

/-- The entry of a daemon was claimed by it. -/
theorem Claimed.of_token (htoken : DistinctTokens daemons) {d' : ℕ}
    {path : RegistryPath} {entry : DaemonRegistryEntry} (h : Claimed daemons s path entry)
    (hentry : entry.token = (daemons d').token) : d' ∈ s.claims ∧ (daemons d').path = path ∧
      entry = (daemons d').entry entry.heartbeatUnixMs := by
  obtain ⟨t, ht, hpath, heq⟩ := h
  have htok : (daemons t).token = (daemons d').token := by
    rw [← hentry, heq]
    rfl
  obtain rfl := htoken htok
  exact ⟨ht, hpath, heq⟩

/-- After a claim, the other daemons own what they did. -/
theorem owns_claim (htoken : DistinctTokens daemons) {d' : ℕ} {entry : DaemonRegistryEntry}
    (hentry : entry.token = (daemons d).token)
    (hfiles : s'.files = update s.files (daemons d).path (some entry)) :
    Owns daemons s' d' → d' = d ∨ Owns daemons s d' := by
  rintro ⟨current, hcurrent, htok⟩
  rw [hfiles] at hcurrent
  by_cases hpath : (daemons d').path = (daemons d).path
  · rw [hpath, update_self] at hcurrent
    obtain rfl := some.inj hcurrent
    exact Or.inl (htoken (htok.symm.trans hentry))
  · rw [update_of_ne hpath] at hcurrent
    exact Or.inr ⟨current, hcurrent, htok⟩

/-! ## The scan -/

section

variable (h : Inv daemons s)

include h

theorem Inv.new (hphase : s.phase d = .new) {input : Input} :
    Inv daemons (daemonStep daemons s d input) := by
  have hok := h.phase d
  rw [hphase] at hok
  unfold daemonStep
  rw [hphase]
  exact h.of_step rfl (by rw [hphase]; nofun) rfl hok rfl (fun _ _ _ hlock => ⟨hlock, rfl⟩) h.files
    (fun _ hown => hown) (fun _ _ => rfl) (h.listed d) fun _ _ _ _ => trivial

theorem Inv.list {input : Input} (hanswers : Answers daemons s d input)
    (hphase : s.phase d = .list) : Inv daemons (daemonStep daemons s d input) := by
  have hok := h.phase d
  rw [hphase] at hok
  unfold daemonStep
  rw [hphase]
  refine h.of_step rfl (by rw [hphase]; nofun) rfl ⟨hok, fun _ hx => nomatch hx⟩ rfl
    (fun _ _ _ hlock => ⟨hlock, rfl⟩) h.files (fun _ hown => hown)
    (fun _ hd => update_of_ne hd _ _) ?_ fun d' _ hown _ => Or.inl ?_
  · simp only [update_self, le_rfl]
  · obtain ⟨entry, hfile, -⟩ := hown
    exact (hanswers.listing hphase _).mpr (Option.isSome_of_mem hfile)

theorem Inv.read (htoken : DistinctTokens daemons)
    {todo : List RegistryPath} {found : List (RegistryPath × DaemonRegistryEntry)} {input : Input}
    (hphase : s.phase d = .read todo found) : Inv daemons (daemonStep daemons s d input) := by
  obtain ⟨hrun, ⟨hunclaimed, hfound⟩, hsees⟩ := h.at hphase (by nofun)
  unfold daemonStep
  rw [hphase]
  cases todo with
  | nil =>
    refine h.setPhase (hrun _) ⟨hunclaimed, fun x hx => ?_⟩ fun d' hshares hown hnot => ?_
    · exact hfound x (StableSort.mem_stableSort.mp hx)
    · rcases hsees d' hshares hown hnot with hmem | ⟨ms, hmem⟩
      · cases hmem
      · exact ⟨ms, StableSort.mem_stableSort.mpr hmem⟩
  | cons path todo =>
    cases hfile : s.files path with
    | none =>
      simp only [hfile]
      exact h.setPhase (hrun _) trivial fun _ _ _ _ => trivial
    | some entry =>
      simp only [hfile]
      have hentry := h.files path entry hfile
      refine h.setPhase (hrun _) ⟨hunclaimed, fun x hx => ?_⟩ fun d' hshares hown hnot => ?_
      · rcases mem_append.mp hx with hx | hx
        · exact hfound x hx
        · rw [mem_singleton.mp hx]
          exact hentry
      · rcases hsees d' hshares hown hnot with hmem | ⟨ms, hmem⟩
        · rcases mem_cons.mp hmem with hpath | hmem
          · -- The file that was read is the one of the daemon, so its entry is found.
            obtain ⟨current, hcurrent, htok⟩ := hown
            rw [hpath, hfile] at hcurrent
            obtain rfl := some.inj hcurrent
            obtain ⟨-, -, heq⟩ := hentry.of_token htoken htok
            refine Or.inr ⟨entry.heartbeatUnixMs, mem_append_right _ ?_⟩
            rw [mem_singleton, hpath, ← heq]
          · exact Or.inl hmem
        · exact Or.inr ⟨ms, mem_append_left _ hmem⟩

/-- The entry that a scan removes is of a daemon that has ended, or expired. -/
theorem Inv.lapsed (htoken : DistinctTokens daemons)
    {path : RegistryPath} {entry : DaemonRegistryEntry}
    {todo : List (RegistryPath × DaemonRegistryEntry)} {input : Input}
    (hanswers : Answers daemons s d input) (hphase : s.phase d = .check ((path, entry) :: todo))
    (hentry : Claimed daemons s path entry)
    (hspared : (input.pidAlive && !daemonRegistryHeartbeatExpired entry s.now) = false) :
    Lapsed daemons s entry := by
  intro t ht
  obtain ⟨hclaim, -, heq⟩ := hentry.of_token htoken ht
  by_cases hexpired : daemonRegistryHeartbeatExpired entry s.now = true
  · exact Or.inr hexpired
  · refine Or.inl ?_
    have hpid : (daemons t).pid = entry.pid := by
      rw [heq]
      rfl
    have hdead : ¬ (s.phase t).Alive := by
      intro halive
      rw [hanswers.pidAlive path entry todo hphase t halive hpid] at hspared
      simp [hexpired] at hspared
    have hok := h.phase t
    cases ht' : s.phase t with
    | new =>
      rw [ht'] at hok
      exact absurd hclaim hok
    | exited => trivial
    | _ =>
      rw [ht'] at hdead
      exact absurd trivial hdead

theorem Inv.check (htoken : DistinctTokens daemons)
    {todo : List (RegistryPath × DaemonRegistryEntry)} {input : Input}
    (hanswers : Answers daemons s d input) (hphase : s.phase d = .check todo) :
    Inv daemons (daemonStep daemons s d input) := by
  obtain ⟨hrun, ⟨hunclaimed, htodo⟩, hsees⟩ := h.at hphase (by nofun)
  unfold daemonStep
  rw [hphase]
  cases todo with
  | nil =>
    refine h.setPhase (hrun _) hunclaimed fun d' hshares hown hnot => ?_
    obtain ⟨ms, hmem⟩ := hsees d' hshares hown hnot
    cases hmem
  | cons pair todo =>
    obtain ⟨path, entry⟩ := pair
    have hentry : Claimed daemons s path entry := htodo (path, entry) mem_cons_self
    have hrest : ∀ x ∈ todo, Claimed daemons s x.1 x.2 := fun x hx =>
      htodo x (mem_cons_of_mem _ hx)
    simp only
    split_ifs with hroot hserved
    · -- A daemon that shares a root is not skipped.
      refine h.setPhase (hrun _) ⟨hunclaimed, hrest⟩ fun d' hshares hown hnot => ?_
      obtain ⟨ms, hmem⟩ := hsees d' hshares hown hnot
      refine ⟨ms, (mem_cons.mp hmem).resolve_left fun heq => ?_⟩
      obtain ⟨root, hd, hd'⟩ := hshares
      obtain ⟨-, rfl⟩ := Prod.mk.inj heq
      simp only [sharesRoot, Bool.not_eq_true', any_eq_false, decide_eq_true_eq] at hroot
      exact hroot root hd' hd
    · exact h.setPhase (hrun _) trivial fun _ _ _ _ => trivial
    · have hlapsed := h.lapsed htoken hanswers hphase hentry (Bool.eq_false_iff.mpr hserved)
      have hjob : JobOk daemons s d (.conflict path entry todo) :=
        ⟨hunclaimed, hentry, hrest, hlapsed⟩
      refine h.setPhase (hrun _) (hjob.frame (Frame.setPhase (hrun _))) fun d' hshares hown hnot => ?_
      obtain ⟨ms, hmem⟩ := hsees d' hshares hown hnot
      exact ⟨ms, (mem_cons.mp hmem).imp Eq.symm id⟩

/-! ## The sections under a lock -/

theorem Inv.locking {job : Job} {input : Input}
    (hphase : s.phase d = .locking job) : Inv daemons (daemonStep daemons s d input) := by
  obtain ⟨hrun, hok, hsees⟩ := h.at hphase (by nofun)
  unfold daemonStep
  rw [hphase]
  cases hlock : s.locks (job.path (daemons d)) with
  | some holder =>
    simp only [hlock]
    exact h
  | none =>
    simp only [hlock]
    refine h.of_step rfl (hrun _) rfl ⟨?_, update_self _ _ _⟩ rfl (fun d' _ path hpath => ?_)
      h.files (fun _ hown => hown) (fun _ _ => rfl) (h.listed d) fun d' hshares hown hnot => ?_
    · have hframe : Frame s (s.setPhase d (.comparing job)) d := Frame.setPhase (hrun _)
      have hjob := JobOk.frame hok hframe
      cases job with
      | conflict => exact hjob
      | heartbeat | stop => exact hjob
    · have hne : path ≠ job.path (daemons d) := fun heq => by
        rw [heq, hlock] at hpath
        cases hpath
      exact ⟨(update_of_ne hne _ _).trans hpath, rfl⟩
    · have hold := hsees d' hshares hown hnot
      cases job with
      | conflict => exact hold
      | heartbeat | stop => trivial

theorem Inv.comparing (htoken : DistinctTokens daemons)
    {job : Job} {input : Input} (hphase : s.phase d = .comparing job) :
    Inv daemons (daemonStep daemons s d input) := by
  obtain ⟨hrun, ⟨hjob, hlock⟩, hsees⟩ := h.at hphase (by nofun)
  -- Without the entry that was read in the file, its daemon does not own the file.
  have hgone : (∀ current, s.files (job.path (daemons d)) = some current →
      (current.token, current.pid) ≠ job.own (daemons d)) →
      Inv daemons (s.setPhase d (.releasing job false)) := by
    intro hother
    refine h.setPhase (hrun _) ⟨hjob.frame (Frame.setPhase (hrun _)), hlock⟩
      fun d' hshares hown hnot => ?_
    have hold := hsees d' hshares hown hnot
    cases job with
    | heartbeat | stop => trivial
    | conflict path entry todo =>
      obtain ⟨ms, hmem⟩ := hold
      refine ⟨ms, hmem.resolve_left fun heq => ?_⟩
      obtain ⟨rfl, rfl⟩ := Prod.mk.inj heq
      obtain ⟨current, hcurrent, htok⟩ := hown
      obtain ⟨-, -, heq⟩ := (h.files _ current hcurrent).of_token htoken htok
      refine hother current hcurrent ?_
      rw [heq]
      rfl
  unfold daemonStep
  rw [hphase]
  cases hfile : s.files (job.path (daemons d)) with
  | none =>
    simp only [hfile]
    exact hgone fun current hcurrent => by
      rw [hfile] at hcurrent
      cases hcurrent
  | some current =>
    simp only [hfile]
    split_ifs with hown
    · refine h.setPhase (hrun _) ⟨hjob.frame (Frame.setPhase (hrun _)), hlock, current, hfile, hown⟩
        fun d' hshares hown hnot => ?_
      have hold := hsees d' hshares hown hnot
      cases job with
      | conflict => exact hold
      | heartbeat | stop => trivial
    · exact hgone fun other hother => by
        rw [hfile] at hother
        obtain rfl := some.inj hother
        exact hown

/-- A file that is changed under its lock changes its owner to none, or keeps it. -/
theorem Inv.owns_acting {job : Job} {d' : ℕ} {input : Input}
    (hphase : s.phase d = .acting job) (hown : Owns daemons (daemonStep daemons s d input) d') :
    Owns daemons s d' := by
  have hok := h.phase d
  rw [hphase] at hok
  obtain ⟨-, -, current, hcurrent, hmatch⟩ := hok
  unfold daemonStep at hown
  rw [hphase] at hown
  obtain ⟨entry, hfile, htok⟩ := hown
  by_cases hpath : (daemons d').path = job.path (daemons d)
  · simp only [hpath, update_self] at hfile
    cases job with
    | conflict | stop => cases hfile
    | heartbeat ms =>
      obtain rfl := some.inj hfile
      refine ⟨current, hpath ▸ hcurrent, ?_⟩
      rw [← htok]
      exact (Prod.mk.inj hmatch).1
  · simp only [update_of_ne hpath] at hfile
    exact ⟨entry, hfile, htok⟩

theorem Inv.acting {job : Job} {input : Input}
    (hphase : s.phase d = .acting job) : Inv daemons (daemonStep daemons s d input) := by
  obtain ⟨hrun, ⟨hjob, hlock, -⟩, hsees⟩ := h.at hphase (by nofun)
  have howns := fun d' => @Inv.owns_acting daemons s d h job d' input hphase
  unfold daemonStep at howns ⊢
  rw [hphase] at howns ⊢
  simp only at howns ⊢
  have hframe : Frame s (s.setPhase d (.releasing job true)) d := Frame.setPhase (hrun _)
  refine h.of_step rfl (hrun _) rfl ⟨?_, hlock⟩ rfl (fun d' hd path hpath => ⟨hpath, ?_⟩)
    (fun path entry hfile => ?_) howns (fun _ _ => rfl) (h.listed d)
    fun d' hshares hown hnot => ?_
  · have hjob' := hjob.frame hframe
    cases job with
    | conflict => exact hjob'
    | heartbeat | stop => exact hjob'
  · have hne : path ≠ job.path (daemons d) := fun heq => by
      rw [heq, hlock] at hpath
      exact hd (some.inj hpath).symm
    exact update_of_ne hne _ _
  · by_cases hpath : path = job.path (daemons d)
    · subst hpath
      simp only [update_self] at hfile
      cases job with
      | conflict | stop => cases hfile
      | heartbeat ms =>
        obtain rfl := some.inj hfile
        exact ⟨d, hjob, rfl, rfl⟩
    · simp only [update_of_ne hpath] at hfile
      exact h.files path entry hfile
  · cases job with
    | heartbeat | stop => trivial
    | conflict path entry todo =>
      obtain ⟨current', hfile, htok⟩ := hown
      have hpath : (daemons d').path ≠ path := fun heq => by
        simp only [Job.path, heq, update_self] at hfile
        cases hfile
      simp only [Job.path, update_of_ne hpath] at hfile
      obtain ⟨ms, hmem⟩ := hsees d' hshares ⟨current', hfile, htok⟩ hnot
      exact ⟨ms, hmem.resolve_left fun heq => hpath (Prod.mk.inj heq).1.symm⟩

theorem Inv.releasing {job : Job} {owned : Bool} {input : Input}
    (hphase : s.phase d = .releasing job owned) : Inv daemons (daemonStep daemons s d input) := by
  obtain ⟨hrun, ⟨hjob, hlock⟩, hsees⟩ := h.at hphase (by nofun)
  unfold daemonStep
  rw [hphase]
  simp only
  refine h.of_step rfl (hrun _) rfl ?_ rfl (fun d' hd path hpath => ⟨?_, rfl⟩) h.files
    (fun _ hown => hown) (fun _ _ => rfl) (h.listed d) fun d' hshares hown hnot => ?_
  · cases job with
    | conflict path entry todo => exact ⟨hjob.1, hjob.2.2.1⟩
    | heartbeat ms => cases owned <;> exact hjob
    | stop error => trivial
  · have hne : path ≠ job.path (daemons d) := fun heq => by
      rw [heq, hlock] at hpath
      exact hd (some.inj hpath).symm
    exact (update_of_ne hne _ _).trans hpath
  · have hold := hsees d' hshares hown hnot
    cases job with
    | conflict => exact hold
    | heartbeat => cases owned <;> trivial
    | stop => trivial

/-! ## The claim and the rest -/

theorem Inv.claim (htoken : DistinctTokens daemons)
    {input : Input} (hphase : s.phase d = .claim) : Inv daemons (daemonStep daemons s d input) := by
  obtain ⟨hrun, hok, -⟩ := h.at hphase (by nofun)
  unfold daemonStep
  rw [hphase]
  cases hfile : s.files (daemons d).path with
  | some existing =>
    simp only
    exact h.setPhase (hrun _) hok fun _ _ _ _ => trivial
  | none =>
    simp only
    have hclaims : s.claims ⊆ s.claims ++ [d] := subset_append_left _ _
    have hmem : d ∈ s.claims ++ [d] := mem_append_right _ mem_cons_self
    refine ⟨fun d' => ?_, fun path entry hentry => ?_, fun d' => ?_,
      fun t d' hshares hown hnot => ?_⟩
    · simp only [State.setPhase]
      by_cases hd : d' = d
      · subst hd
        rw [update_self]
        exact hmem
      · rw [update_of_ne hd]
        refine (h.phase d').frame ⟨hclaims, fun hnot hin => ?_, fun _ hlock => hlock,
          fun path entry _ hentry => ?_, (Frame.setPhase (hrun .running)).exited, le_rfl⟩
        · rcases mem_append.mp hin with hin | hin
          · exact hnot hin
          · exact hd (mem_singleton.mp hin)
        · have hne : path ≠ (daemons d).path := fun heq => by
            rw [heq, hfile] at hentry
            cases hentry
          exact (update_of_ne hne _ _).trans hentry
    · by_cases hpath : path = (daemons d).path
      · subst hpath
        simp only [update_self] at hentry
        obtain rfl := some.inj hentry
        exact ⟨d, hmem, rfl, rfl⟩
      · simp only [update_of_ne hpath] at hentry
        exact (h.files path entry hentry).mono hclaims
    · exact (h.listed d').trans (by simp)
    · simp only [State.setPhase] at hnot ⊢
      rw [drop_append_of_le_length (h.listed t), mem_append, not_or] at hnot
      have hd' : d' ≠ d := fun heq => hnot.2 (mem_singleton.mpr heq)
      have hold := (owns_claim htoken rfl rfl hown).resolve_left hd'
      by_cases ht : t = d
      · subst ht
        rw [update_self]
        trivial
      · rw [update_of_ne ht]
        exact h.sees t d' hshares hold hnot.1

theorem Inv.refused {input : Input} (hphase : s.phase d = .refused) :
    Inv daemons (daemonStep daemons s d input) := by
  have hrun := exited_of_running hphase (by nofun)
  unfold daemonStep
  rw [hphase]
  cases hfile : s.files (daemons d).path with
  | none =>
    simp only
    exact h.setPhase (hrun _) trivial fun _ _ _ _ => trivial
  | some existing =>
    simp only
    exact h.setPhase (hrun _) trivial fun _ _ _ _ => trivial

theorem Inv.running {input : Input} (hphase : s.phase d = .running) :
    Inv daemons (daemonStep daemons s d input) := by
  obtain ⟨hrun, hok, -⟩ := h.at hphase (by nofun)
  have hstop : ∀ error, Inv daemons (s.setPhase d (.locking (.stop error))) := fun error =>
    h.setPhase (hrun _) hok fun _ _ _ _ => trivial
  unfold daemonStep
  rw [hphase]
  simp only
  cases input.action with
  | stop => exact hstop _
  | heartbeat => exact h.setPhase (hrun _) hok fun _ _ _ _ => trivial
  | check =>
    cases hfile : s.files (daemons d).path with
    | none =>
      simp only
      exact hstop _
    | some current =>
      simp only
      split_ifs
      · exact hstop _
      · exact h

/-- A step keeps the invariant. -/
theorem Inv.step (htoken : DistinctTokens daemons)
    {input : Input} (hanswers : Answers daemons s d input) :
    Inv daemons (daemonStep daemons s d input) := by
  cases hphase : s.phase d with
  | new => exact h.new hphase
  | list => exact h.list hanswers hphase
  | read todo found => exact h.read htoken hphase
  | check todo => exact h.check htoken hanswers hphase
  | locking job => exact h.locking hphase
  | comparing job => exact h.comparing htoken hphase
  | acting job => exact h.acting hphase
  | releasing job owned => exact h.releasing hphase
  | claim => exact h.claim htoken hphase
  | refused => exact h.refused hphase
  | running => exact h.running hphase
  | exited error =>
    unfold daemonStep
    rw [hphase]
    exact h

theorem Inv.tick (ms : ℕ) : Inv daemons { s with now := s.now + ms } where
  phase d := (h.phase d).frame ⟨Subset.refl _, id, fun _ h => h, fun _ _ _ h => h,
    fun _ h => h, Nat.le_add_right _ _⟩
  files := h.files
  listed := h.listed
  sees := h.sees

theorem Inv.kill : Inv daemons (s.kill d) := by
  refine h.of_step rfl (fun _ => trivial) rfl trivial rfl (fun d' hd path hlock => ⟨?_, rfl⟩) h.files
    (fun _ hown => hown) (fun _ _ => rfl) (h.listed d) fun _ _ _ _ => trivial
  have hne : s.locks path ≠ some d := fun heq => hd (some.inj (hlock.symm.trans heq))
  simp only [State.kill, if_neg hne]
  exact hlock

end

/-- The invariant holds in every state of every run. -/
theorem inv_of_reachable (htoken : DistinctTokens daemons)
    {allowed : State → ℕ → Prop} (h : Reachable daemons allowed s) : Inv daemons s := by
  induction h with
  | initial now =>
    exact ⟨fun _ => not_mem_nil, fun _ _ h => (nomatch h), fun _ => le_rfl,
      fun _ _ _ _ _ => trivial⟩
  | step _ hanswers _ ih => exact ih.step htoken hanswers
  | tick ms _ ih => exact ih.tick ms
  | kill d _ ih => exact ih.kill

end Invariant

end CodeMoniker.Registry
