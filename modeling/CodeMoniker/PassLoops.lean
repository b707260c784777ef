import CodeMoniker.FuelLoops

/-!
# Loops that repeat a pass

A pass changes a state and reports whether it has changed it. `untilStable` is the loop that
repeats a pass until one reports no change, run on fuel, and `sweep` the pass that does one step for
each element of a list. What a step may do is said once (`Climbs`) : a step that reports a change
raises a measure, and one that reports none leaves what is observed of the state as it was. Sweeps
of such steps are such steps (`climbs_sweep`), and under a bound of the measure the loop ends, in a
state that no pass changes (`untilStable_ends`).
-/

namespace FuelLoops

variable {σ α β : Type}

/-- `loop { if !pass() { break } }`, for a pass that may run on fuel itself. -/
def untilStable (pass : ℕ → σ → Run (σ × Bool)) : ℕ → σ → Run σ
  | 0, _ => .running
  | fuel + 1, s =>
    match pass fuel s with
    | .done (next, true) => untilStable pass fuel next
    | .done (next, false) => .done next
    | .panic => .panic
    | .running => .running

/-- `for a in l { changed |= step(a) }`. -/
def sweep (step : σ → α → σ × Bool) (s : σ) : List α → σ × Bool
  | [] => (s, false)
  | a :: l => ((sweep step (step s a).1 l).1, (step s a).2 || (sweep step (step s a).1 l).2)

/-! ## Passes that climb -/

/-- What a step does on the states with `Inv` : what is observed of a state (`view`) goes up in a
measure when the step reports a change, and stays when it does not. Whether it does depends on what
is observed. -/
structure Climbs (Inv : σ → Prop) (view : σ → β) (height : β → ℕ) (step : σ → σ × Bool) : Prop where
  keeps : ∀ s, Inv s → Inv (step s).1
  climbs : ∀ s, Inv s → (step s).2 = true → height (view s) < height (view (step s).1)
  stays : ∀ s, Inv s → (step s).2 = false → view (step s).1 = view s
  same : ∀ s s', Inv s → Inv s' → view s = view s' → (step s).2 = (step s').2

variable {Inv : σ → Prop} {view : σ → β} {height : β → ℕ} {step : σ → α → σ × Bool}

theorem Climbs.le {step : σ → σ × Bool} (h : Climbs Inv view height step) {s : σ} (hs : Inv s) :
    height (view s) ≤ height (view (step s).1) := by
  cases hchanged : (step s).2 with
  | true => exact (h.climbs s hs hchanged).le
  | false => rw [h.stays s hs hchanged]

theorem climbs_sweep : ∀ {l : List α}, (∀ a ∈ l, Climbs Inv view height (step · a)) →
    Climbs Inv view height (sweep step · l)
  | [], _ => ⟨fun _ hs => hs, fun _ _ hchanged => by simp [sweep] at hchanged, fun _ _ _ => rfl,
      fun _ _ _ _ _ => rfl⟩
  | a :: l, h => by
    have ha := h a List.mem_cons_self
    have hl := climbs_sweep fun b hb => h b (List.mem_cons_of_mem a hb)
    refine ⟨fun s hs => ?_, fun s hs hchanged => ?_, fun s hs hchanged => ?_,
      fun s s' hs hs' hview => ?_⟩
    · rw [sweep]
      exact hl.keeps _ (ha.keeps s hs)
    · rw [sweep] at hchanged ⊢
      rcases Bool.or_eq_true_iff.mp hchanged with hchanged | hchanged
      · exact (ha.climbs s hs hchanged).trans_le (hl.le (ha.keeps s hs))
      · exact (ha.le hs).trans_lt (hl.climbs _ (ha.keeps s hs) hchanged)
    · rw [sweep, Bool.or_eq_false_iff] at hchanged
      rw [sweep, hl.stays _ (ha.keeps s hs) hchanged.2, ha.stays s hs hchanged.1]
    · have hsame := ha.same s s' hs hs' hview
      rw [sweep, sweep, hsame]
      cases hchanged : (step s' a).2 with
      | true => simp
      | false =>
        have hnext : view (step s a).1 = view (step s' a).1 := by
          rw [ha.stays s hs (hsame.trans hchanged), ha.stays s' hs' hchanged, hview]
        rw [hl.same _ _ (ha.keeps s hs) (ha.keeps s' hs') hnext]

/-- A sweep reports no change when no step of it does, all taken from where it starts. -/
theorem sweep_quiet_iff : ∀ {l : List α}, (∀ a ∈ l, Climbs Inv view height (step · a)) →
    ∀ {s : σ}, Inv s → ((sweep step s l).2 = false ↔ ∀ a ∈ l, (step s a).2 = false)
  | [], _, s, _ => by simp [sweep]
  | a :: l, h, s, hs => by
    have ha := h a List.mem_cons_self
    have hrest := sweep_quiet_iff (fun b hb => h b (List.mem_cons_of_mem a hb)) (ha.keeps s hs)
    rw [sweep, Bool.or_eq_false_iff, List.forall_mem_cons, hrest]
    refine and_congr_right fun hquiet => ?_
    have hview := ha.stays s hs hquiet
    refine forall₂_congr fun b hb => ?_
    rw [(h b (List.mem_cons_of_mem a hb)).same _ s (ha.keeps s hs) hs hview]

/-! ## The loop -/

variable {pass : ℕ → σ → Run (σ × Bool)}

/-- More fuel does not change what a pass or a loop returns. -/
def FuelIrrelevant {ρ : Type} (pass : ℕ → σ → Run ρ) : Prop :=
  ∀ fuel s r, pass fuel s = .done r → ∀ more, pass (fuel + more) s = .done r

theorem fuelIrrelevant_untilStable (h : FuelIrrelevant pass) :
    FuelIrrelevant (untilStable pass) := by
  intro fuel
  induction fuel with
  | zero =>
    intro s r hr
    simp [untilStable] at hr
  | succ fuel ih =>
    intro s r hr more
    rw [Nat.succ_add, untilStable]
    rw [untilStable] at hr
    split at hr
    · next next hpass =>
      rw [h fuel s _ hpass more]
      exact ih next r hr more
    · next next hpass =>
      rw [h fuel s _ hpass more]
      exact hr
    · cases hr
    · cases hr

/-- The loop ends when a pass that reports a change lowers a measure, and it ends in a state that a
pass without a change has left. -/
theorem untilStable_ends {post : σ → Prop} (measure : σ → ℕ) (hfuel : FuelIrrelevant pass)
    (hpass : ∀ s, Inv s → ∃ fuel next changed, pass fuel s = .done (next, changed) ∧ Inv next ∧
      (changed = true → measure next < measure s) ∧ (changed = false → post next)) :
    ∀ s, Inv s → ∃ fuel result, untilStable pass fuel s = .done result ∧ Inv result ∧
      post result := by
  intro s
  induction hn : measure s using Nat.strong_induction_on generalizing s with
  | _ n ih =>
    intro hs
    obtain ⟨fuel, next, changed, hrun, hnext, hlt, hpost⟩ := hpass s hs
    cases changed with
    | false =>
      refine ⟨fuel + 1, next, ?_, hnext, hpost rfl⟩
      rw [untilStable, hrun]
    | true =>
      obtain ⟨fuel', result, hresult, hend⟩ := ih (measure next) (hn ▸ hlt rfl) next rfl hnext
      refine ⟨fuel + fuel' + 1, result, ?_, hend⟩
      rw [untilStable, hfuel fuel s _ hrun fuel']
      have hmore := fuelIrrelevant_untilStable hfuel fuel' next result hresult fuel
      rwa [Nat.add_comm] at hmore

/-- A loop whose passes run on no fuel ends when some pass reports no change. -/
theorem untilStable_done_iff {pass : σ → σ × Bool} {s : σ} :
    (∃ fuel result, untilStable (fun _ s => .done (pass s)) fuel s = .done result) ↔
      ∃ n, (pass ((fun s => (pass s).1)^[n] s)).2 = false := by
  constructor
  · rintro ⟨fuel, result, hrun⟩
    induction fuel generalizing s with
    | zero => simp [untilStable] at hrun
    | succ fuel ih =>
      rw [untilStable] at hrun
      split at hrun
      · next next hpass =>
        have hnext : (pass s).1 = next := congrArg Prod.fst (Run.done.inj hpass)
        obtain ⟨n, hn⟩ := ih hrun
        exact ⟨n + 1, by rwa [Function.iterate_succ_apply, hnext]⟩
      · next next hpass => exact ⟨0, congrArg Prod.snd (Run.done.inj hpass)⟩
      · next hpass => cases hpass
      · next hpass => cases hpass
  · rintro ⟨n, hn⟩
    induction n generalizing s with
    | zero =>
      rw [Function.iterate_zero, id_eq] at hn
      exact ⟨1, (pass s).1, by rw [untilStable, ← Prod.eta (pass s), hn]⟩
    | succ n ih =>
      cases hchanged : (pass s).2 with
      | false => exact ⟨1, (pass s).1, by rw [untilStable, ← Prod.eta (pass s), hchanged]⟩
      | true =>
        obtain ⟨fuel, result, hrun⟩ := ih hn
        exact ⟨fuel + 1, result, by rwa [untilStable, ← Prod.eta (pass s), hchanged]⟩

end FuelLoops
