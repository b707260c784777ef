import CodeMoniker.NoteUpdates

/-!
# Runs of the notes

`updates_kept` says what holds in every state of a run. The lock file is removed before the
document is published, and a reload takes no lock. A process may therefore publish an older
version after a newer one (`older_published`), but only when another of its operations
published in between (`Undisturbed`). Operations of a process that exclude each other never do.
-/

namespace CodeMoniker.Notes

open List Function
open Option (some.inj)

section Run

variable {fromToml : String → Except String NotesDocument} {toToml : NotesDocument → String}
  {path : String} {process : ℕ → ℕ} {s s' init : State} {t : ℕ}
  {allowed : State → ℕ → Operation → Prop} {file : Option (String × ℕ)}
  {documents : ℕ → NotesDocument}

/-! ## What a step does -/

/-- The mark that a thread holds until it publishes. -/
def Phase.mark : Phase → Option Mark
  | .restat _ _ mark | .remove _ (.ok (_, mark)) | .publish _ _ mark => some mark
  | _ => none

/-- What a thread may save. -/
def Phase.mutation : Phase → Option Mutation
  | .probe (.mutate f) | .stat (.mutate f) | .read (.mutate f) _ | .create f _ _ | .check f _
  | .write f _ | .rename f _ _ => some f
  | _ => none

/-- The mark of the next phase is the one of the phase before, or one of now. Nothing is saved that
the phase before would not save. -/
structure Phase.Follows (next phase : Phase) (publications : ℕ) : Prop where
  mark : ∀ mark ∈ next.mark, mark ∈ phase.mark ∨ mark.publications = publications
  mutation : ∀ f ∈ next.mutation, f ∈ phase.mutation

/-- What a step does to the saves and to the operations that returned. -/
inductive Effect (s s' : State) (t : ℕ) : Prop
  | none : s'.file = s.file → s'.commits = s.commits → s'.wrote = s.wrote →
      s'.returns = s.returns → (s.phase t = .idle → s'.phase t = .idle) → Effect s s' t
  | returned (ret : Return) : s'.file = s.file → s'.commits = s.commits → s'.wrote = s.wrote →
      s'.returns = s.returns ++ [ret] → ret.wrote = s.wrote t → s.phase t ≠ .idle →
      s'.phase t = .idle → Effect s s' t
  | saved (commit : Commit) : commit.mutation ∈ (s.phase t).mutation →
      commit.written.number = s.current + 1 → s'.current = s.current + 1 →
      s'.commits = s.commits ++ [commit] → s'.wrote = Function.update s.wrote t (some commit) →
      s'.returns = s.returns → Effect s s' t

/-- A step of a thread that publishes nothing. -/
structure Quiet (process : ℕ → ℕ) (s s' : State) (t : ℕ) : Prop where
  phase : ∃ phase : Phase, s'.phase = Function.update s.phase t phase ∧
    phase.Follows (s.phase t) (s.publications (process t))
  effect : Effect s s' t
  published : s'.published = s.published
  publications : s'.publications = s.publications

theorem Phase.Follows.idle {phase : Phase} {publications : ℕ} :
    Phase.idle.Follows phase publications where
  mark _ h := nomatch h
  mutation _ h := nomatch h

/-- A phase without a mark follows each phase that saves the same. -/
theorem Phase.Follows.of_mutation {next phase : Phase} {publications : ℕ}
    (hmark : next.mark = none) (h : next.mutation = phase.mutation) :
    next.Follows phase publications where
  mark _ hmem := by
    rw [hmark] at hmem
    cases hmem
  mutation _ hmem := h ▸ hmem

/-- A phase that saves nothing more follows each phase with the same mark. -/
theorem Phase.Follows.of_mark {next phase : Phase} {publications : ℕ}
    (hmutation : next.mutation = none) (h : ∀ mark ∈ next.mark, mark ∈ phase.mark ∨
      mark.publications = publications) : next.Follows phase publications where
  mark := h
  mutation _ hmem := by
    rw [hmutation] at hmem
    cases hmem

section Running

variable (hrun : s.phase t ≠ .idle)

include hrun

theorem Effect.of_run (hfile : s'.file = s.file) (hcommits : s'.commits = s.commits)
    (hwrote : s'.wrote = s.wrote) (hreturns : s'.returns = s.returns) : Effect s s' t :=
  .none hfile hcommits hwrote hreturns fun hidle => absurd hidle hrun

theorem Effect.finish {op : Operation} {result : Except String Unit} :
    Effect s (s.finish t op result) t :=
  .returned ⟨op, result, s.wrote t⟩ rfl rfl rfl rfl rfl hrun (update_self _ _ _)

theorem Quiet.setPhase {phase : Phase}
    (h : phase.Follows (s.phase t) (s.publications (process t))) :
    Quiet process s (s.setPhase t phase) t :=
  ⟨⟨phase, rfl, h⟩, .of_run hrun rfl rfl rfl rfl, rfl, rfl⟩

theorem Quiet.finish {op : Operation} {result : Except String Unit} :
    Quiet process s (s.finish t op result) t :=
  ⟨⟨.idle, rfl, .idle⟩, .finish hrun, rfl, rfl⟩

theorem Quiet.loaded {op : Operation} {store : NotesStore}
    (h : (Phase.probe op).mutation = (s.phase t).mutation) :
    Quiet process s (loaded process s t op store) t := by
  cases op with
  | reload =>
    exact .setPhase hrun (.of_mark rfl fun mark hmark => Or.inr (some.inj hmark ▸ rfl))
  | mutate f =>
    simp only [Notes.loaded]
    cases f store.document with
    | error e => exact .finish hrun
    | ok document => exact .setPhase hrun (.of_mutation rfl h)

end Running

/-- A step either publishes a document or is quiet. -/
theorem threadStep_cases {nonce modified : ℕ} :
    Quiet process s (threadStep fromToml toToml path process s t nonce modified) t ∨
    ∃ op document mark, s.phase t = .publish op document mark ∧
      threadStep fromToml toToml path process s t nonce modified = { s.finish t op (.ok ()) with
          published := update s.published (process t) ⟨document, mark.number⟩
          publications :=
            update s.publications (process t) (s.publications (process t) + 1) } := by
  by_cases hidle : s.phase t = .idle
  · have hupdate : s.phase = update s.phase t .idle := by
      rw [← hidle, update_eq_self]
    unfold threadStep
    rw [hidle]
    exact Or.inl ⟨⟨.idle, hupdate, .idle⟩, .none rfl rfl rfl rfl id, rfl, rfl⟩
  unfold threadStep
  cases hphase : s.phase t with
  | publish op document mark => exact Or.inr ⟨op, document, mark, rfl, rfl⟩
  | idle => exact absurd hphase hidle
  | probe op =>
    refine Or.inl ?_
    cases s.file with
    | none => exact .loaded hidle (by rw [hphase])
    | some version =>
      refine .setPhase hidle (.of_mutation rfl ?_)
      rw [hphase]
      cases op <;> rfl
  | stat op =>
    refine Or.inl ?_
    cases s.file with
    | none => exact .finish hidle
    | some version =>
      refine .setPhase hidle (.of_mutation rfl ?_)
      rw [hphase]
      cases op <;> rfl
  | read op stated =>
    refine Or.inl ?_
    cases s.file with
    | none => exact .finish hidle
    | some version =>
      simp only
      cases fromToml version.text with
      | error e => exact .finish hidle
      | ok document =>
        refine .loaded hidle ?_
        rw [hphase]
        cases op <;> rfl
  | create f store attempts =>
    refine Or.inl ?_
    cases s.lock with
    | none =>
      exact ⟨⟨_, rfl, .of_mutation rfl (by rw [hphase]; rfl)⟩, .of_run hidle rfl rfl rfl rfl, rfl,
        rfl⟩
    | some holder =>
      simp only
      split_ifs
      · exact .finish hidle
      · exact .setPhase hidle (.of_mutation rfl (by rw [hphase]; rfl))
  | check f store =>
    refine Or.inl ?_
    simp only
    split_ifs
    · exact .setPhase hidle (.of_mutation rfl (by rw [hphase]; rfl))
    · exact .setPhase hidle (.of_mark rfl fun _ h => nomatch h)
  | write f store =>
    exact Or.inl ⟨⟨_, rfl, .of_mutation rfl (by rw [hphase]; rfl)⟩,
      .of_run hidle rfl rfl rfl rfl, rfl, rfl⟩
  | rename f store temp =>
    refine Or.inl ?_
    simp only
    cases s.temps temp with
    | none => exact .setPhase hidle (.of_mark rfl fun _ h => nomatch h)
    | some pair =>
      obtain ⟨text, modified⟩ := pair
      refine ⟨⟨_, rfl, .of_mark rfl fun mark hmark => Or.inr (some.inj hmark ▸ rfl)⟩,
        .saved _ ?_ rfl rfl rfl rfl rfl, rfl, rfl⟩
      rw [hphase]
      rfl
  | restat f store mark =>
    refine Or.inl ?_
    cases s.file with
    | none => exact .setPhase hidle (.of_mark rfl fun _ h => nomatch h)
    | some version =>
      exact .setPhase hidle (.of_mark rfl fun _ hmark => Or.inl (by rw [hphase]; exact hmark))
  | remove f result =>
    refine Or.inl ?_
    cases result with
    | error e =>
      exact ⟨⟨_, rfl, .idle⟩, .returned ⟨.mutate f, .error e, s.wrote t⟩ rfl rfl rfl rfl rfl hidle
        (update_self _ _ _), rfl, rfl⟩
    | ok saved =>
      exact ⟨⟨_, rfl, .of_mark rfl fun _ hmark => Or.inl (by rw [hphase]; exact hmark)⟩,
        .of_run hidle rfl rfl rfl rfl, rfl, rfl⟩

theorem threadStep_effect {nonce modified : ℕ} :
    Effect s (threadStep fromToml toToml path process s t nonce modified) t := by
  rcases @threadStep_cases fromToml toToml path process s t nonce modified with
    hquiet | ⟨op, document, mark, hphase, hstep⟩
  · exact hquiet.effect
  · have hrun : s.phase t ≠ .idle := by
      rw [hphase]
      nofun
    rw [hstep]
    exact .returned ⟨op, .ok (), s.wrote t⟩ rfl rfl rfl rfl rfl hrun (update_self _ _ _)

/-- A step leaves the phases of the other threads. -/
theorem threadStep_phase_of_ne {nonce modified t' : ℕ} (ht : t' ≠ t) :
    (threadStep fromToml toToml path process s t nonce modified).phase t' = s.phase t' := by
  rcases @threadStep_cases fromToml toToml path process s t nonce modified with
    hquiet | ⟨op, document, mark, -, hstep⟩
  · obtain ⟨phase, hphase, -⟩ := hquiet.phase
    rw [hphase, update_of_ne ht]
  · rw [hstep]
    exact update_of_ne ht _ _

theorem threadStep_mutation {nonce modified : ℕ} {f : Mutation}
    (hf : f ∈ ((threadStep fromToml toToml path process s t nonce modified).phase t).mutation) :
    f ∈ (s.phase t).mutation := by
  rcases @threadStep_cases fromToml toToml path process s t nonce modified with
    hquiet | ⟨op, document, mark, -, hstep⟩
  · obtain ⟨phase, hphase, hfollows⟩ := hquiet.phase
    rw [hphase, update_self] at hf
    exact hfollows.mutation f hf
  · rw [hstep] at hf
    simp only [State.finish, State.setPhase, update_self] at hf
    cases hf

/-! ## Undisturbed operations -/

/-- No other operation of the process has published since the one that publishes next read the
file or replaced it. -/
def Undisturbed (process : ℕ → ℕ) (s : State) (t : ℕ) : Prop :=
  ∀ op document mark, s.phase t = .publish op document mark →
    s.publications (process t) = mark.publications

/-- Undisturbed, a process does not go back to an older version. -/
theorem published_le (h : Inv fromToml toToml process init s) (hundisturbed : Undisturbed process s t)
    {nonce modified p : ℕ} : (s.published p).number ≤
      ((threadStep fromToml toToml path process s t nonce modified).published p).number := by
  rcases @threadStep_cases fromToml toToml path process s t nonce modified with
    hquiet | ⟨op, document, mark, hphase, hstep⟩
  · rw [hquiet.published]
  · have hok := h.phase t
    rw [hphase] at hok
    rw [hstep]
    by_cases hp : p = process t
    · subst hp
      simp only [update_self]
      exact hok.1.published (hundisturbed op document mark hphase)
    · simp only [update_of_ne hp, le_rfl]

/-! ## Operations that exclude each other -/

/-- An operation starts when no other operation of its process runs. -/
def Exclusive (process : ℕ → ℕ) (allowed : State → ℕ → Operation → Prop) : Prop :=
  ∀ s t op, allowed s t op → ∀ t', process t' = process t → s.phase t' = .idle

/-- At most one thread of a process runs, and nothing was published since its mark. -/
structure Alone (process : ℕ → ℕ) (s : State) : Prop where
  alone : ∀ t t', process t = process t' → s.phase t ≠ .idle → s.phase t' ≠ .idle → t = t'
  mark : ∀ t, ∀ mark ∈ (s.phase t).mark, s.publications (process t) = mark.publications

theorem Alone.undisturbed (h : Alone process s) : Undisturbed process s t :=
  fun op document mark hphase => h.mark t mark (by rw [hphase]; rfl)

theorem Alone.of_update {phase : Phase} (h : Alone process s)
    (hphase : s'.phase = update s.phase t phase)
    (hother : ∀ t' ≠ t, process t' = process t → phase ≠ .idle → s.phase t' = .idle)
    (hmark : ∀ mark ∈ phase.mark, s'.publications (process t) = mark.publications)
    (hpublications : ∀ t' ≠ t, s.phase t' ≠ .idle →
      s'.publications (process t') = s.publications (process t')) : Alone process s' where
  alone a b hab ha hb := by
    rw [hphase] at ha hb
    by_cases hat : a = t
    · by_cases hbt : b = t
      · rw [hat, hbt]
      · subst hat
        rw [update_self] at ha
        rw [update_of_ne hbt] at hb
        exact absurd (hother b hbt hab.symm ha) hb
    · rw [update_of_ne hat] at ha
      by_cases hbt : b = t
      · subst hbt
        rw [update_self] at hb
        exact absurd (hother a hat hab hb) ha
      · rw [update_of_ne hbt] at hb
        exact h.alone a b hab ha hb
  mark a mark hmem := by
    rw [hphase] at hmem
    by_cases hat : a = t
    · subst hat
      rw [update_self] at hmem
      exact hmark mark hmem
    · rw [update_of_ne hat] at hmem
      have hidle : s.phase a ≠ .idle := fun hidle => by
        rw [hidle] at hmem
        cases hmem
      rw [hpublications a hat hidle]
      exact h.mark a mark hmem

theorem Alone.step (h : Alone process s) {nonce modified : ℕ} :
    Alone process (threadStep fromToml toToml path process s t nonce modified) := by
  by_cases hidle : s.phase t = .idle
  · have hsame : threadStep fromToml toToml path process s t nonce modified = s := by
      unfold threadStep
      rw [hidle]
    rw [hsame]
    exact h
  have hother : ∀ t' ≠ t, process t' = process t → s.phase t' = .idle := by
    intro t' ht hp
    by_contra hrun
    exact ht (h.alone t' t hp hrun hidle)
  rcases @threadStep_cases fromToml toToml path process s t nonce modified with
    hquiet | ⟨op, document, mark, hphase, hstep⟩
  · obtain ⟨phase, hphase, hfollows⟩ := hquiet.phase
    refine h.of_update hphase (fun t' ht hp _ => hother t' ht hp) (fun mark hmem => ?_)
      fun t' _ _ => by rw [hquiet.publications]
    rw [hquiet.publications]
    rcases hfollows.mark mark hmem with hold | hnow
    · exact h.mark t mark hold
    · exact hnow.symm
  · rw [hstep]
    refine @Alone.of_update process s _ t .idle h rfl (fun t' ht hp _ => hother t' ht hp)
      (fun _ hmem => nomatch hmem) fun t' ht hrun => ?_
    have hp : process t' ≠ process t := fun hp => hrun (hother t' ht hp)
    exact update_of_ne hp _ _

theorem Alone.of_reachable (hexclusive : Exclusive process allowed)
    (h : Reachable fromToml toToml path process allowed (State.initial file documents) s) :
    Alone process s := by
  induction h with
  | init => exact ⟨fun _ _ _ h => absurd rfl h, fun _ _ h => nomatch h⟩
  | @start s t op _ _ hallowed ih =>
    exact ih.of_update rfl (fun t' _ hp _ => hexclusive s t op hallowed t' hp)
      (fun _ hmem => nomatch hmem) fun _ _ _ => rfl
  | step _ _ ih => exact ih.step

/-! ## One save for each operation -/

/-- The saves of the operations that returned. -/
def State.returned (s : State) : List Commit := s.returns.filterMap (·.wrote)

/-- No save belongs to two operations. -/
structure Owned (s : State) : Prop where
  number : ∀ commit ∈ s.commits, commit.written.number ≤ s.current
  wrote : ∀ t, ∀ commit ∈ s.wrote t, commit ∈ s.commits
  running : ∀ t t', ∀ commit ∈ s.wrote t, commit ∈ s.wrote t' → s.phase t ≠ .idle →
    s.phase t' ≠ .idle → t = t'
  returned : ∀ commit ∈ s.returned, commit ∈ s.commits
  pending : ∀ t, ∀ commit ∈ s.wrote t, s.phase t ≠ .idle → commit ∉ s.returned
  nodup : s.returned.Nodup

theorem Owned.of_effect (h : Owned s) (heffect : Effect s s' t)
    (hother : ∀ t' ≠ t, s'.phase t' = s.phase t') : Owned s' := by
  cases heffect with
  | none hfile hcommits hwrote hreturns hidle =>
    have hrun : ∀ t', s'.phase t' ≠ .idle → s.phase t' ≠ .idle := by
      intro t' hrun
      by_cases ht : t' = t
      · subst ht
        exact fun h => hrun (hidle h)
      · rwa [← hother t' ht]
    have hreturned : s'.returned = s.returned := by rw [State.returned, hreturns, State.returned]
    refine ⟨?_, ?_, ?_, ?_, ?_, ?_⟩
    · rw [hcommits, State.current, hfile]
      exact h.number
    · rw [hwrote, hcommits]
      exact h.wrote
    · rw [hwrote]
      exact fun a b commit ha hb harun hbrun =>
        h.running a b commit ha hb (hrun a harun) (hrun b hbrun)
    · rw [hreturned, hcommits]
      exact h.returned
    · rw [hwrote, hreturned]
      exact fun t' commit hmem ht' => h.pending t' commit hmem (hrun t' ht')
    · rw [hreturned]
      exact h.nodup
  | returned ret hfile hcommits hwrote hreturns hret hbefore hafter =>
    have hne : ∀ t', s'.phase t' ≠ .idle → t' ≠ t := fun t' hrun ht => hrun (ht ▸ hafter)
    have hrun : ∀ t', s'.phase t' ≠ .idle → s.phase t' ≠ .idle := fun t' hrun => by
      rwa [← hother t' (hne t' hrun)]
    have hreturned : s'.returned = s.returned ++ (s.wrote t).toList := by
      rw [State.returned, hreturns, filterMap_append, State.returned, ← hret]
      cases hw : ret.wrote with
      | none => simp [hw]
      | some commit => simp [hw]
    refine ⟨?_, ?_, ?_, ?_, ?_, ?_⟩
    · rw [hcommits, State.current, hfile]
      exact h.number
    · rw [hwrote, hcommits]
      exact h.wrote
    · rw [hwrote]
      exact fun a b commit ha hb harun hbrun =>
        h.running a b commit ha hb (hrun a harun) (hrun b hbrun)
    · rw [hreturned, hcommits]
      intro commit hmem
      rcases mem_append.mp hmem with hmem | hmem
      · exact h.returned commit hmem
      · exact h.wrote t commit (Option.mem_toList.mp hmem)
    · rw [hwrote, hreturned]
      intro t' commit hmem ht' hin
      rcases mem_append.mp hin with hin | hin
      · exact h.pending t' commit hmem (hrun t' ht') hin
      · exact hne t' ht' (h.running t' t commit hmem (Option.mem_toList.mp hin) (hrun t' ht') hbefore)
    · rw [hreturned, nodup_append]
      refine ⟨h.nodup, ?_, fun commit hmem commit' hmem' heq => ?_⟩
      · cases s.wrote t with
        | none => exact nodup_nil
        | some commit => exact nodup_singleton commit
      · subst heq
        exact h.pending t commit (Option.mem_toList.mp hmem') hbefore hmem
  | saved commit hmutation hnumber hcurrent hcommits hwrote hreturns =>
    have hbefore : s.phase t ≠ .idle := by
      intro hidle
      rw [hidle] at hmutation
      cases hmutation
    have hrun : ∀ t', s'.phase t' ≠ .idle → s.phase t' ≠ .idle := by
      intro t' hrun
      by_cases ht : t' = t
      · exact ht ▸ hbefore
      · rwa [← hother t' ht]
    have hnew : commit ∉ s.commits := fun hmem => by
      have hle := h.number commit hmem
      omega
    have hreturned : s'.returned = s.returned := by rw [State.returned, hreturns, State.returned]
    have hself : s'.wrote t = some commit := by rw [hwrote, update_self]
    have hsame : ∀ t' ≠ t, s'.wrote t' = s.wrote t' := fun t' ht => by
      rw [hwrote, update_of_ne ht]
    refine ⟨?_, ?_, ?_, ?_, ?_, ?_⟩
    · rw [hcommits, hcurrent]
      intro c hc
      rcases mem_append.mp hc with hc | hc
      · exact (h.number c hc).trans (Nat.le_succ _)
      · rw [mem_singleton.mp hc, hnumber]
    · rw [hcommits]
      intro t' c hc
      by_cases ht : t' = t
      · subst ht
        obtain rfl := some.inj (hself.symm.trans hc)
        exact mem_append_right _ mem_cons_self
      · rw [hsame t' ht] at hc
        exact mem_append_left _ (h.wrote t' c hc)
    · intro a b c ha hb harun hbrun
      by_cases hat : a = t
      · by_cases hbt : b = t
        · rw [hat, hbt]
        · subst hat
          obtain rfl := some.inj (hself.symm.trans ha)
          rw [hsame b hbt] at hb
          exact absurd (h.wrote b _ hb) hnew
      · rw [hsame a hat] at ha
        by_cases hbt : b = t
        · subst hbt
          obtain rfl := some.inj (hself.symm.trans hb)
          exact absurd (h.wrote a _ ha) hnew
        · rw [hsame b hbt] at hb
          exact h.running a b c ha hb (hrun a harun) (hrun b hbrun)
    · rw [hreturned, hcommits]
      exact fun c hc => mem_append_left _ (h.returned c hc)
    · rw [hreturned]
      intro t' c hc ht' hin
      by_cases ht : t' = t
      · subst ht
        obtain rfl := some.inj (hself.symm.trans hc)
        exact hnew (h.returned _ hin)
      · rw [hsame t' ht] at hc
        exact h.pending t' c hc (hrun t' ht') hin
    · rw [hreturned]
      exact h.nodup

theorem Owned.of_reachable
    (h : Reachable fromToml toToml path process allowed (State.initial file documents) s) :
    Owned s := by
  induction h with
  | init =>
    exact ⟨fun _ h => (nomatch h), fun _ _ h => (nomatch h), fun _ _ _ h => (nomatch h),
      fun _ h => (nomatch h), fun _ _ h => (nomatch h), nodup_nil⟩
  | @start s t op _ hidle _ ih =>
    -- The save of the operation before is forgotten, and was returned.
    have hwrote : ∀ t', ∀ commit ∈ (start s t op).wrote t', t' ≠ t ∧ commit ∈ s.wrote t' := by
      intro t' commit hmem
      by_cases ht : t' = t
      · subst ht
        simp [start] at hmem
      · refine ⟨ht, ?_⟩
        simpa only [start, update_of_ne ht] using hmem
    have hphase : ∀ t' ≠ t, (start s t op).phase t' = s.phase t' := fun t' ht =>
      update_of_ne ht _ _
    refine ⟨ih.number, fun t' commit hmem => ih.wrote t' commit (hwrote t' commit hmem).2, ?_,
      ih.returned, ?_, ih.nodup⟩
    · intro a b commit ha hb harun hbrun
      obtain ⟨hat, ha⟩ := hwrote a commit ha
      obtain ⟨hbt, hb⟩ := hwrote b commit hb
      rw [hphase a hat] at harun
      rw [hphase b hbt] at hbrun
      exact ih.running a b commit ha hb harun hbrun
    · intro t' commit hmem hrun
      obtain ⟨ht, hmem⟩ := hwrote t' commit hmem
      rw [hphase t' ht] at hrun
      exact ih.pending t' commit hmem hrun
  | step _ _ ih => exact ih.of_effect threadStep_effect fun _ ht => threadStep_phase_of_ne ht

/-! ## Distinct ids -/

/-- Every document that the change returns comes from the document by edits. -/
def ByEdits (f : Mutation) : Prop :=
  ∀ d d', f d = .ok d' →
    Relation.ReflTransGen (fun d d' => ∃ edit : NoteEdit, edit.apply d = .ok d') d d'

theorem ByEdits.apply (edit : NoteEdit) : ByEdits edit.apply :=
  fun _ _ h => .single ⟨edit, h⟩

theorem ByEdits.distinctIds {f : Mutation} (h : ByEdits f) {d d' : NotesDocument}
    (hd : d.DistinctIds) (hf : f d = .ok d') : d'.DistinctIds := by
  have hedits := h d d' hf
  clear hf
  induction hedits with
  | refl => exact hd
  | tail _ hedit ih =>
    obtain ⟨edit, hok⟩ := hedit
    exact edit.distinctIds_apply ih hok

/-- Only changes that satisfy `P` are saved. -/
structure Saves (P : Mutation → Prop) (s : State) : Prop where
  phase : ∀ t, ∀ f ∈ (s.phase t).mutation, P f
  commits : ∀ commit ∈ s.commits, P commit.mutation

theorem Saves.step {P : Mutation → Prop} (h : Saves P s) {nonce modified : ℕ} :
    Saves P (threadStep fromToml toToml path process s t nonce modified) where
  phase t' f hf := by
    by_cases ht : t' = t
    · subst ht
      exact h.phase t' f (threadStep_mutation hf)
    · rw [threadStep_phase_of_ne ht] at hf
      exact h.phase t' f hf
  commits commit hcommit := by
    cases @threadStep_effect fromToml toToml path process s t nonce modified with
    | none _ hcommits =>
      rw [hcommits] at hcommit
      exact h.commits commit hcommit
    | returned _ _ hcommits =>
      rw [hcommits] at hcommit
      exact h.commits commit hcommit
    | saved new hmutation _ _ hcommits =>
      rw [hcommits] at hcommit
      rcases mem_append.mp hcommit with hcommit | hcommit
      · exact h.commits commit hcommit
      · rw [mem_singleton.mp hcommit]
        exact h.phase t _ hmutation

theorem Saves.of_reachable {P : Mutation → Prop} (hallowed : ∀ s t f, allowed s t (.mutate f) → P f)
    (h : Reachable fromToml toToml path process allowed (State.initial file documents) s) :
    Saves P s := by
  induction h with
  | init => exact ⟨fun _ _ h => (nomatch h), fun _ h => nomatch h⟩
  | @start s t op _ _ hop ih =>
    refine ⟨fun t' f hf => ?_, ih.commits⟩
    by_cases ht : t' = t
    · subst ht
      simp only [start, State.setPhase, update_self] at hf
      cases op with
      | reload => cases hf
      | mutate g =>
        obtain rfl := some.inj hf
        exact hallowed s t' g hop
    · simp only [start, State.setPhase, update_of_ne ht] at hf
      exact ih.phase t' f hf
  | step _ _ ih => exact ih.step

/-- A chain of saves keeps the ids distinct when each saved text is read as what was saved. -/
theorem CommitChain.distinctIds {last : Option Version} : ∀ {commits : List Commit}
    {first : Option Version}, CommitChain first commits last →
    (∀ commit ∈ commits, commit.Applied fromToml toToml) →
    (∀ commit ∈ commits, ByEdits commit.mutation) →
    (∀ commit ∈ commits, ∀ d d', documentOf fromToml commit.before = .ok d →
      commit.mutation d = .ok d' → fromToml (toToml d') = .ok d') →
    (∀ d, documentOf fromToml first = .ok d → d.DistinctIds) →
    ∀ d, documentOf fromToml last = .ok d → d.DistinctIds
  | [], _, h, _, _, _, hfirst => h ▸ hfirst
  | commit :: commits, first, h, happlied, hedits, hround, hfirst => by
    obtain ⟨hbefore, hrest⟩ := h
    refine CommitChain.distinctIds hrest (fun c hc => happlied c (mem_cons_of_mem commit hc))
      (fun c hc => hedits c (mem_cons_of_mem commit hc))
      (fun c hc => hround c (mem_cons_of_mem commit hc)) fun d hd => ?_
    obtain ⟨d₀, d₁, hd₀, hf, htext⟩ := happlied commit mem_cons_self
    have hread : fromToml commit.written.text = .ok d₁ :=
      htext ▸ hround commit mem_cons_self d₀ d₁ hd₀ hf
    obtain rfl : d = d₁ := Except.ok.inj (hd.symm.trans hread)
    exact (hedits commit mem_cons_self).distinctIds (hfirst d₀ (hbefore ▸ hd₀)) hf

/-! ## Every run -/

/-- In every state of a run : each save is the change of the version that the save before it left,
and the file is the last one ; an operation that returned an error has saved nothing, a mutation
that returned has saved, and no save belongs to two of them ; the ids stay distinct ; a process
shows a version of the file, and goes back to an older one only when another of its operations
has published in between, so never when they exclude each other. -/
theorem updates_kept (hedits : ∀ s t f, allowed s t (.mutate f) → ByEdits f)
    (h : Reachable fromToml toToml path process allowed (State.initial file documents) s) :
    (CommitChain (State.initial file documents).file s.commits s.file ∧
      ∀ commit ∈ s.commits, commit.Applied fromToml toToml) ∧
    ((∀ ret ∈ s.returns, ret.Ok s) ∧ s.returned.Nodup) ∧
    ((∀ commit ∈ s.commits, ∀ d d', documentOf fromToml commit.before = .ok d →
        commit.mutation d = .ok d' → fromToml (toToml d') = .ok d') →
      (∀ d, documentOf fromToml (State.initial file documents).file = .ok d → d.DistinctIds) →
      ∀ d, documentOf fromToml s.file = .ok d → d.DistinctIds) ∧
    (∀ p, Shows fromToml toToml s (s.published p).document (s.published p).number) ∧
    (∀ t nonce modified, Undisturbed process s t → ∀ p, (s.published p).number ≤
      ((threadStep fromToml toToml path process s t nonce modified).published p).number) ∧
    (Exclusive process allowed → ∀ t, Undisturbed process s t) := by
  have hinv := inv_of_reachable h
  have hsaves := Saves.of_reachable hedits h
  refine ⟨⟨hinv.chain, hinv.applied⟩, ⟨hinv.returns, (Owned.of_reachable h).nodup⟩, ?_,
    hinv.shows, fun t nonce modified hundisturbed p => published_le hinv hundisturbed, ?_⟩
  · exact fun hround hfirst => hinv.chain.distinctIds hinv.applied hsaves.commits hround hfirst
  · exact fun hexclusive t => (Alone.of_reachable hexclusive h).undisturbed

end Run

/-! ## Two writers of one process -/

def sampleNote (id : String) : Note where
  id := id
  moniker := "code+moniker://./lang:rs/module:example"
  kind := .todo
  status := .pending
  title := "Title"
  body := "Body"
  createdBy := .user
  createdAt := "2026-06-02T00:00:00Z"
  updatedAt := "2026-06-02T00:00:00Z"

/-- The table of a sample note in the file. -/
def sampleTable (note : Note) : String :=
  "[[notes]]\nid = \"" ++ note.id ++ "\"\nmoniker = \"" ++ note.moniker ++
  "\"\nkind = \"todo\"\nstatus = \"pending\"\ntitle = \"" ++ note.title ++ "\"\nbody = \"" ++
  note.body ++ "\"\ncreated_by = \"user\"\ncreated_at = \"" ++ note.createdAt ++
  "\"\nupdated_at = \"" ++ note.updatedAt ++ "\"\n"

def sampleToToml (document : NotesDocument) : String :=
  "\n".intercalate (document.notes.map sampleTable)

/-- The first saved document, and the one after it. -/
def sampleDocuments : List NotesDocument :=
  [⟨[sampleNote "note_1"]⟩, ⟨[sampleNote "note_1", sampleNote "note_2"]⟩]

def sampleFromToml (text : String) : Except String NotesDocument :=
  match sampleDocuments.find? (sampleToToml · = text) with
  | some document => .ok document
  | none => .error "TOML parse error"

/-- Two threads of the process 7. -/
abbrev sampleStep (s : State) (step : ℕ × ℕ × ℕ) : State :=
  threadStep sampleFromToml sampleToToml ".code-moniker/notes.toml" (fun _ => 7) s step.1 step.2.1
    step.2.2

/-- Each thread inserts a note. -/
def sampleInsert (t : ℕ) : NoteEdit :=
  .insert (sampleNote (if t = 0 then "note_1" else "note_2"))

def sampleAllowed (_ : State) (t : ℕ) (op : Operation) : Prop :=
  op = .mutate (sampleInsert t).apply

abbrev SampleReachable : State → Prop :=
  Reachable sampleFromToml sampleToToml ".code-moniker/notes.toml" (fun _ => 7) sampleAllowed
    (State.initial none fun _ => {})

def sampleStart : State :=
  start (start (.initial none fun _ => {}) 0 (.mutate (sampleInsert 0).apply)) 1
    (.mutate (sampleInsert 1).apply)

/-- No step carries the modification time of a version. -/
def sampleFresh : State → List (ℕ × ℕ × ℕ) → Bool
  | _, [] => true
  | s, step :: steps =>
    s.versions.all (·.modified != step.2.2) && sampleFresh (sampleStep s step) steps

theorem reachable_sampleSteps : ∀ {s : State} {steps : List (ℕ × ℕ × ℕ)}, SampleReachable s →
    sampleFresh s steps = true → SampleReachable (steps.foldl sampleStep s)
  | _, [], h, _ => h
  | s, step :: steps, h, hfresh => by
    simp only [sampleFresh, Bool.and_eq_true, all_eq_true, bne_iff_ne] at hfresh
    exact @reachable_sampleSteps (sampleStep s step) steps (.step h hfresh.1) hfresh.2

/-- The first thread saves and removes the lock file, then the second does all of its steps. -/
def sampleSteps : List (ℕ × ℕ × ℕ) :=
  [(0, 1, 1), (0, 2, 2), (0, 3, 3), (0, 4, 4), (0, 5, 5), (0, 6, 6), (0, 7, 7),
   (1, 8, 8), (1, 9, 9), (1, 10, 10), (1, 11, 11), (1, 12, 12), (1, 13, 13), (1, 14, 14),
   (1, 15, 15), (1, 16, 16), (1, 17, 17)]

def sampleState : State := sampleSteps.foldl sampleStep sampleStart

theorem reachable_sampleState : SampleReachable sampleState :=
  reachable_sampleSteps (.start (.start .init rfl rfl) rfl rfl) (by decide +kernel)

/-- The text of what is saved is read as it was. -/
def sampleRoundTrips (commit : Commit) : Bool :=
  match documentOf sampleFromToml commit.before with
  | .error _ => true
  | .ok d =>
    match commit.mutation d with
    | .error _ => true
    | .ok d' => sampleFromToml (sampleToToml d') = .ok d'

theorem updates_kept_sample :
    CommitChain none sampleState.commits sampleState.file ∧ sampleState.commits.length = 2 ∧
      sampleState.returned.Nodup ∧
      ∀ d, documentOf sampleFromToml sampleState.file = .ok d → d.DistinctIds := by
  have hedits : ∀ s t f, sampleAllowed s t (.mutate f) → ByEdits f := by
    intro s t f h
    obtain rfl := Operation.mutate.inj h
    exact .apply (sampleInsert t)
  have hcount : sampleState.commits.length = 2 := by decide +kernel
  have hround : sampleState.commits.all sampleRoundTrips = true := by decide +kernel
  have hkept := updates_kept hedits reachable_sampleState
  generalize sampleState = s at *
  obtain ⟨⟨hchain, -⟩, ⟨-, hnodup⟩, hids, -⟩ := hkept
  refine ⟨hchain, hcount, hnodup, hids (fun commit hcommit d d' hd hf => ?_) fun d hd => ?_⟩
  · have h := all_eq_true.mp hround commit hcommit
    simp only [sampleRoundTrips, hd, hf, decide_eq_true_eq] at h
    exact h
  · obtain rfl := Except.ok.inj hd
    exact nodup_nil

/-- The first thread publishes its document after the second one has. -/
theorem older_published :
    ¬ ∀ s, SampleReachable s → ∀ t nonce modified, (∀ v ∈ s.versions, v.modified ≠ modified) →
      ∀ p, (s.published p).number ≤ ((sampleStep s (t, nonce, modified)).published p).number := by
  intro h
  have hle := h sampleState reachable_sampleState 0 18 18 (by decide +kernel) 7
  revert hle
  decide +kernel

end CodeMoniker.Notes
