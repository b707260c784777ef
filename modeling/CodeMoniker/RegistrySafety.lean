import CodeMoniker.RegistryClaims

/-!
# Safety of the daemon registry

A daemon never changes a file that holds the entry of another daemon, once it has claimed its
own (`SafeStep.own`). That a fresh entry of a living daemon is spared, and that daemons with a
common root do not both own an entry, holds of the runs in which every step is `Careful`
(`registry_safe`), and fails of the others (`registry_unsafe`).
-/

namespace CodeMoniker.Registry

section Safety

variable (daemons : ℕ → Daemon)

/-- What the registry promises of a state. -/
structure Safe (s : State) : Prop where
  claimed : ∀ path entry, s.files path = some entry → Claimed daemons s path entry
  alone : ∀ d d', d ≠ d' → SharesRoot daemons d d' → ¬ (Owns daemons s d ∧ Owns daemons s d')

/-- What the registry promises of a step of a daemon : once it has claimed a file it changes only
files with its own entry, and an entry of another daemon that it removes is of one that has ended,
or is expired. -/
structure SafeStep (s s' : State) (d : ℕ) : Prop where
  own : d ∈ s.claims → ∀ path, s'.files path ≠ s.files path →
    ∃ entry, s.files path = some entry ∧ entry.token = (daemons d).token
  spared : ∀ path entry, s.files path = some entry → s'.files path = none →
    ∀ d' ≠ d, entry.token = (daemons d').token →
      ¬ (s.phase d').Alive ∨ daemonRegistryHeartbeatExpired entry s.now = true

/-- A scan that removes an entry finds it as it was read, without a newer heartbeat. A daemon
claims while no daemon that shares a root with it, and has claimed since it listed the entries,
owns one. -/
structure Careful (s : State) (d : ℕ) : Prop where
  removal : ∀ path entry todo, s.phase d = .acting (.conflict path entry todo) →
    s.files path = some entry
  claim : s.phase d = .claim → ∀ d' ∈ s.claims.drop (s.listed d), SharesRoot daemons d d' →
    ¬ Owns daemons s d'

variable {daemons} {s : State} {d : ℕ}

/-- A step changes the files in a section under a lock, or by a claim. -/
theorem daemonStep_files {input : Input} : (daemonStep daemons s d input).files = s.files ∨
    (∃ job entry, s.phase d = .acting job ∧ (daemonStep daemons s d input).files =
      Function.update s.files (job.path (daemons d)) entry) ∨
    (s.phase d = .claim ∧ s.files (daemons d).path = none ∧
      (daemonStep daemons s d input).files = Function.update s.files (daemons d).path
        (some ((daemons d).entry (s.created d)))) := by
  unfold daemonStep
  cases hphase : s.phase d with
  | acting job => exact Or.inr (Or.inl ⟨job, _, rfl, rfl⟩)
  | claim =>
    cases hfile : s.files (daemons d).path with
    | none => exact Or.inr (Or.inr ⟨rfl, rfl, rfl⟩)
    | some existing => exact Or.inl rfl
  | new | list | releasing | exited => exact Or.inl rfl
  | read todo found =>
    refine Or.inl ?_
    cases todo with
    | nil => rfl
    | cons path todo =>
      simp only
      cases s.files path <;> rfl
  | check todo =>
    refine Or.inl ?_
    cases todo with
    | nil => rfl
    | cons pair todo =>
      simp only
      split_ifs <;> rfl
  | locking job =>
    refine Or.inl ?_
    simp only
    cases s.locks (job.path (daemons d)) <;> rfl
  | comparing job =>
    refine Or.inl ?_
    simp only
    cases s.files (job.path (daemons d)) with
    | none => rfl
    | some current =>
      simp only
      split_ifs <;> rfl
  | refused =>
    refine Or.inl ?_
    simp only
    cases s.files (daemons d).path <;> rfl
  | running =>
    refine Or.inl ?_
    simp only
    cases input.action with
    | stop | heartbeat => rfl
    | check =>
      simp only
      cases s.files (daemons d).path with
      | none => rfl
      | some current =>
        simp only
        split_ifs <;> rfl

theorem Phase.Exited.not_alive : ∀ {phase : Phase}, phase.Exited → ¬ phase.Alive
  | .exited _, _, h => h

theorem Inv.safeStep (h : Inv daemons s)
    (htoken : DistinctTokens daemons) {input : Input} (hcareful : Careful daemons s d) :
    SafeStep daemons s (daemonStep daemons s d input) d := by
  rcases @daemonStep_files daemons s d input with hsame | ⟨job, entry, hphase, hfiles⟩ |
    ⟨hphase, hnone, hfiles⟩
  · refine ⟨fun _ path hne => absurd (congrFun hsame path) hne, fun path entry hfile hgone => ?_⟩
    rw [hsame, hfile] at hgone
    cases hgone
  · have hok := h.phase d
    rw [hphase] at hok
    obtain ⟨hjob, -, current, hcurrent, hmatch⟩ := hok
    have hpath : ∀ path, (daemonStep daemons s d input).files path ≠ s.files path →
        path = job.path (daemons d) := by
      intro path hne
      by_contra hother
      rw [hfiles, Function.update_of_ne hother] at hne
      exact hne rfl
    refine ⟨fun hclaimed path hne => ?_, fun path old hfile hgone d' hd htok => ?_⟩
    · obtain rfl := hpath path hne
      cases job with
      | conflict => exact absurd hclaimed hjob.1
      | heartbeat | stop => exact ⟨current, hcurrent, (Prod.mk.inj hmatch).1⟩
    · obtain rfl := hpath path (by rw [hgone, hfile]; nofun)
      cases job with
      | conflict path entry todo =>
        have hread := hcareful.removal path entry todo hphase
        obtain rfl : old = entry := Option.some.inj (hfile.symm.trans hread)
        exact (hjob.2.2.2 d' htok).imp Phase.Exited.not_alive id
      | heartbeat ms =>
        unfold daemonStep at hgone
        rw [hphase] at hgone
        simp at hgone
      | stop error =>
        obtain rfl := Option.some.inj (hfile.symm.trans hcurrent)
        exact absurd (htoken (htok.symm.trans (Prod.mk.inj hmatch).1)) hd
  · have hunclaimed := h.phase d
    rw [hphase] at hunclaimed
    refine ⟨fun hclaimed => absurd hclaimed hunclaimed, fun path entry hfile hgone => ?_⟩
    have hpath : path ≠ (daemons d).path := fun heq => by
      rw [heq, hnone] at hfile
      cases hfile
    rw [hfiles, Function.update_of_ne hpath, hfile] at hgone
    cases hgone

/-- A daemon owns its file after a step if it did before, or has claimed it. -/
theorem Inv.owns_step (h : Inv daemons s) (htoken : DistinctTokens daemons)
    {d' : ℕ} {input : Input} (hown : Owns daemons (daemonStep daemons s d input) d') :
    Owns daemons s d' ∨ d' = d ∧ s.phase d = .claim := by
  rcases @daemonStep_files daemons s d input with hsame | ⟨job, entry, hphase, -⟩ |
    ⟨hphase, -, hfiles⟩
  · obtain ⟨entry, hfile, htok⟩ := hown
    exact Or.inl ⟨entry, hsame ▸ hfile, htok⟩
  · exact Or.inl (h.owns_acting hphase hown)
  · rcases owns_claim htoken rfl hfiles hown with heq | hold
    · exact Or.inr ⟨heq, hphase⟩
    · exact Or.inl hold

/-- A careful claim is the only one of the daemons that share a root. -/
theorem Inv.not_owns_of_claim (h : Inv daemons s) (hcareful : Careful daemons s d)
    (hphase : s.phase d = .claim) {d' : ℕ} (hshares : SharesRoot daemons d d') :
    ¬ Owns daemons s d' := by
  intro hown
  by_cases hsince : d' ∈ s.claims.drop (s.listed d)
  · exact hcareful.claim hphase d' hsince hshares hown
  · have hsees := h.sees d d' hshares hown hsince
    rw [hphase] at hsees
    exact hsees

/-- Every state of a careful run is safe, and so is every careful step from it. -/
theorem registry_safe (htoken : Function.Injective fun d => (daemons d).token)
    (h : Reachable daemons (Careful daemons) s) :
    Safe daemons s ∧ ∀ d input, Answers daemons s d input → Careful daemons s d →
      SafeStep daemons s (daemonStep daemons s d input) d := by
  have hinv := inv_of_reachable htoken h
  refine ⟨⟨hinv.files, ?_⟩, fun d input _ hcareful => hinv.safeStep htoken hcareful⟩
  clear hinv
  induction h with
  | initial now =>
    rintro d d' - - ⟨⟨entry, hfile, -⟩, -⟩
    cases hfile
  | tick ms _ ih => exact ih
  | kill d _ ih => exact ih
  | @step s t input hrun hanswers hcareful ih =>
    have hinv := inv_of_reachable htoken hrun
    rintro d d' hne hshares ⟨hd, hd'⟩
    rcases hinv.owns_step htoken hd with hold | ⟨rfl, hphase⟩
    · rcases hinv.owns_step htoken hd' with hold' | ⟨rfl, hphase⟩
      · exact ih d d' hne hshares ⟨hold, hold'⟩
      · exact hinv.not_owns_of_claim hcareful hphase hshares.symm hold
    · rcases hinv.owns_step htoken hd' with hold' | ⟨heq, -⟩
      · exact hinv.not_owns_of_claim hcareful hphase hshares hold'
      · exact hne heq.symm

end Safety

/-! ## Two daemons with a common root -/

/-- Two projects of one workspace. -/
def sampleDaemons (d : ℕ) : Daemon where
  path := if d = 0 then "9c2f5d0a61b37e44.json" else "03e1a7c85bd2f690.json"
  roots := ["/ws"]
  workspaceRoot := "/ws"
  endpoint := "127.0.0.1:1"
  token := String.ofList (List.replicate (32 + d) 'a')
  pid := 100 + d

theorem injective_sampleDaemons : Function.Injective fun d => (sampleDaemons d).token := by
  intro d d' h
  have hlength := congrArg String.length h
  simpa [sampleDaemons] using hlength

/-- The daemons take their steps, all process identifiers exist, and nothing is listed. -/
def sampleRun (s : State) (steps : List (ℕ × Action)) : State :=
  steps.foldl (fun s step => daemonStep sampleDaemons s step.1 ⟨[], true, step.2⟩) s

/-- No step of the run lists the directory, and each one passes the check. -/
def sampleChecks (check : State → ℕ → Bool) : State → List (ℕ × Action) → Bool
  | _, [] => true
  | s, step :: steps =>
    (match s.phase step.1 with
      | .list => false
      | _ => check s step.1) && sampleChecks check (sampleRun s [step]) steps

variable {allowed : State → ℕ → Prop}

theorem reachable_sampleRun {check : State → ℕ → Bool}
    (hallowed : ∀ s d, check s d = true → allowed s d) :
    ∀ {s : State} {steps : List (ℕ × Action)}, Reachable sampleDaemons allowed s →
      sampleChecks check s steps = true → Reachable sampleDaemons allowed (sampleRun s steps)
  | _, [], h, _ => h
  | s, step :: steps, h, hchecks => by
    simp only [sampleChecks, Bool.and_eq_true] at hchecks
    obtain ⟨hcheck, hrest⟩ := hchecks
    have hanswers : s.phase step.1 ≠ .list →
        Answers sampleDaemons s step.1 ⟨[], true, step.2⟩ :=
      fun hne => ⟨fun hlist => absurd hlist hne, fun _ _ _ _ _ _ _ => rfl⟩
    have hstep : Reachable sampleDaemons allowed (sampleRun s [step]) := by
      split at hcheck
      · cases hcheck
      · next hne => exact .step h (hanswers hne) (hallowed s step.1 hcheck)
    exact @reachable_sampleRun check hallowed (sampleRun s [step]) steps hstep hrest

/-- A daemon lists the files that are there. -/
theorem reachable_list {s : State} {d : ℕ}
    {listing : List RegistryPath} (h : Reachable sampleDaemons allowed s) (hallowed : allowed s d)
    (hphase : s.phase d = .list) (hlisting : ∀ path, path ∈ listing ↔ (s.files path).isSome) :
    Reachable sampleDaemons allowed (daemonStep sampleDaemons s d ⟨listing, true, .check⟩) := by
  refine .step h ⟨fun _ => hlisting, fun path entry todo hcheck => ?_⟩ hallowed
  rw [hphase] at hcheck
  cases hcheck

/-- A daemon starts, and lists the files. -/
def sampleListed (s : State) (d : ℕ) (listing : List RegistryPath) : State :=
  daemonStep sampleDaemons (sampleRun s [(d, .check)]) d ⟨listing, true, .check⟩

/-- The first daemon has claimed its file. -/
def sampleClaimed : State :=
  sampleRun (sampleListed (.initial 1000) 0 []) [(0, .check), (0, .check), (0, .check)]

/-- Nothing is removed, and nobody claims after another one. -/
def sampleCareful (s : State) (d : ℕ) : Bool :=
  match s.phase d with
  | .claim => s.claims.isEmpty
  | .acting _ => false
  | _ => true

theorem careful_of_sampleCareful (s : State) (d : ℕ) (h : sampleCareful s d = true) :
    Careful sampleDaemons s d where
  removal path entry todo hphase := by
    simp only [sampleCareful, hphase] at h
    cases h
  claim hphase d' hd' := by
    simp only [sampleCareful, hphase, List.isEmpty_iff] at h
    rw [h, List.drop_nil] at hd'
    cases hd'

theorem reachable_sampleClaimed (hallowed : ∀ s d, sampleCareful s d = true → allowed s d) :
    Reachable sampleDaemons allowed sampleClaimed := by
  have hstart : Reachable sampleDaemons allowed (sampleRun (.initial 1000) [(0, .check)]) :=
    reachable_sampleRun hallowed (.initial 1000) rfl
  have hlisted : Reachable sampleDaemons allowed (sampleListed (.initial 1000) 0 []) :=
    reachable_list hstart (hallowed _ _ rfl) rfl fun path => ⟨nofun, nofun⟩
  exact reachable_sampleRun hallowed hlisted rfl

/-- The second daemon lists the file of the first one. -/
theorem reachable_listFirst {s : State} (h : Reachable sampleDaemons allowed s)
    (hallowed : allowed s 1) (hphase : s.phase 1 = .list)
    (hfiles : s.files = Function.update (fun _ => none) "9c2f5d0a61b37e44.json"
      (some ((sampleDaemons 0).entry 1000))) : Reachable sampleDaemons allowed
    (daemonStep sampleDaemons s 1 ⟨["9c2f5d0a61b37e44.json"], true, .check⟩) := by
  refine reachable_list h hallowed hphase fun path => ?_
  rw [hfiles, List.mem_singleton]
  by_cases hpath : path = "9c2f5d0a61b37e44.json"
  · simp [hpath]
  · simp [hpath]

/-- The first daemon runs, and the second one has listed its file. -/
def sampleBeside : State := sampleListed sampleClaimed 1 ["9c2f5d0a61b37e44.json"]

theorem registry_safe_sample : Safe sampleDaemons sampleBeside ∧
      SafeStep sampleDaemons sampleBeside
        (daemonStep sampleDaemons sampleBeside 1 ⟨[], true, .check⟩) 1 := by
  have hcareful := careful_of_sampleCareful
  have hstarted := @reachable_sampleRun _ _ hcareful _ [(1, .check)]
    (reachable_sampleClaimed hcareful) rfl
  obtain ⟨hsafe, hstep⟩ := registry_safe injective_sampleDaemons
    (reachable_listFirst hstarted (hcareful _ _ rfl) rfl rfl)
  refine ⟨hsafe, hstep 1 _ ⟨nofun, fun _ _ _ _ _ _ _ => rfl⟩ ?_⟩
  exact hcareful _ _ rfl

/-- Both daemons scan before the first one claims. -/
def sampleBoth : State :=
  sampleRun (sampleListed (sampleRun (sampleListed (.initial 1000) 0 []) [(0, .check), (0, .check)])
    1 []) [(1, .check), (1, .check), (1, .check), (0, .check)]

/-- The second daemon has read an expired entry of the first one, which then writes a heartbeat. -/
def sampleExpired : State :=
  sampleRun (sampleListed { sampleClaimed with now := 21000 } 1 ["9c2f5d0a61b37e44.json"])
    [(1, .check), (1, .check), (1, .check), (0, .heartbeat), (0, .check), (0, .check), (0, .check),
     (0, .check), (1, .check), (1, .check)]

theorem reachable_sampleBoth : Reachable sampleDaemons (fun _ _ => True) sampleBoth := by
  have hall : ∀ s d, (fun _ _ => true : State → ℕ → Bool) s d = true → True := fun _ _ _ => trivial
  have hfirst : Reachable sampleDaemons (fun _ _ => True) (sampleListed (.initial 1000) 0 []) :=
    reachable_list (reachable_sampleRun hall (.initial 1000) rfl) trivial rfl
      fun path => ⟨nofun, nofun⟩
  have hscanned : Reachable sampleDaemons (fun _ _ => True)
      (sampleRun (sampleListed (.initial 1000) 0 []) [(0, .check), (0, .check)]) :=
    reachable_sampleRun hall hfirst rfl
  have hstarted := @reachable_sampleRun _ _ hall _ [(1, .check)] hscanned rfl
  exact reachable_sampleRun hall (@reachable_list _ _ 1 [] hstarted trivial rfl
    fun path => ⟨nofun, nofun⟩) rfl

theorem reachable_sampleExpired : Reachable sampleDaemons (fun _ _ => True) sampleExpired := by
  have hall : ∀ s d, (fun _ _ => true : State → ℕ → Bool) s d = true → True := fun _ _ _ => trivial
  have hclaimed : Reachable sampleDaemons (fun _ _ => True) { sampleClaimed with now := 21000 } :=
    .tick 20000 (reachable_sampleClaimed fun _ _ _ => trivial)
  have hstarted := @reachable_sampleRun _ _ hall _ [(1, .check)] hclaimed rfl
  exact reachable_sampleRun hall (reachable_listFirst hstarted trivial rfl rfl) rfl

/-- Two daemons with a common root both own an entry, and a daemon removes the fresh entry of
another one that runs. -/
theorem registry_unsafe :
    (¬ ∀ s, Reachable sampleDaemons (fun _ _ => True) s → Safe sampleDaemons s) ∧
    ¬ ∀ s, Reachable sampleDaemons (fun _ _ => True) s → ∀ d input,
      Answers sampleDaemons s d input →
        SafeStep sampleDaemons s (daemonStep sampleDaemons s d input) d := by
  refine ⟨fun h => ?_, fun h => ?_⟩
  · refine (h sampleBoth reachable_sampleBoth).alone 0 1 (by decide)
      ⟨"/ws", List.mem_cons_self, List.mem_cons_self⟩ ⟨?_, ?_⟩
    · exact ⟨(sampleDaemons 0).entry 1000, rfl, rfl⟩
    · exact ⟨(sampleDaemons 1).entry 1000, rfl, rfl⟩
  · have hstep := h sampleExpired reachable_sampleExpired 1 ⟨[], true, .check⟩
      ⟨nofun, fun _ _ _ _ _ _ _ => rfl⟩
    rcases hstep.spared "9c2f5d0a61b37e44.json" ((sampleDaemons 0).entry 21000) rfl rfl 0 (by decide)
      rfl with hdead | hexpired
    · exact hdead trivial
    · revert hexpired
      decide

end CodeMoniker.Registry
