import CodeMoniker.RefText

/-!
# Cycles of references, and what an expansion contains

A table of texts has all its expansions exactly when no name leads back to itself and every name
that a text refers to is in the table (`isSome_expansion_iff`). How expansions are written plays
no role in that. If it keeps sigils and names apart, no reference is left in an expansion
(`names_expandText`), and where two ways of writing agree on the characters of the texts they give
the same expansions (`expansion_congr_output`).
-/

set_option linter.unusedSectionVars false

namespace RefText

open List Option

variable {α β : Type} [DecidableEq α] (g : Grammar α) (o : Output α β)

/-! ## Cycles -/

/-- The text of `n` refers to `m`. -/
def Refers (src : List α → Option (List α)) (n m : List α) : Prop :=
  ∃ text, src n = some text ∧ m ∈ names g text

variable {g o} {src : List α → Option (List α)}

theorem isSome_expandAt_succ {d : ℕ} {n : List α} : (expandAt g o src (d + 1) n).isSome ↔
    ∃ text, src n = some text ∧ ∀ m ∈ names g text, (expandAt g o src d m).isSome := by
  rw [expandAt]
  cases src n with
  | none => simp
  | some text => simp [isSome_expandTokens, mem_names]

/-- A chain of references leads to smaller depths. -/
theorem lt_of_transGen {n m : List α} (h : Relation.TransGen (Refers g src) n m) :
    ∀ {d : ℕ}, (expandAt g o src d n).isSome → ∃ e < d, (expandAt g o src e m).isSome := by
  have hstep : ∀ {n m : List α} {d : ℕ}, Refers g src n m → (expandAt g o src d n).isSome →
      ∃ e < d, (expandAt g o src e m).isSome := by
    rintro n m (_ | d) ⟨text, htext, hm⟩ hd
    · cases hd
    · obtain ⟨text', htext', hall⟩ := isSome_expandAt_succ.mp hd
      obtain rfl := some.inj (htext.symm.trans htext')
      exact ⟨d, Nat.lt_succ_self d, hall m hm⟩
  induction h with
  | single hr => exact hstep hr
  | tail _ hr ih =>
    intro d hd
    obtain ⟨e, he, hmid⟩ := ih hd
    obtain ⟨f, hf, hend⟩ := hstep hr hmid
    exact ⟨f, hf.trans he, hend⟩

theorem isSome_expansion {n : List α} :
    (expansion g o src n).isSome ↔ ∃ d, (expandAt g o src d n).isSome := by
  simp only [isSome_iff_exists, expansion_eq_some_iff]
  exact exists_comm

theorem not_cycle_of_isSome {n : List α} (h : (expansion g o src n).isSome) :
    ¬Relation.TransGen (Refers g src) n n := by
  intro hcycle
  obtain ⟨d, hd⟩ := isSome_expansion.mp h
  induction d using Nat.strong_induction_on with
  | _ d ih =>
    obtain ⟨e, he, hend⟩ := lt_of_transGen hcycle hd
    exact ih e he hend

theorem isSome_of_refers {n m : List α} (h : (expansion g o src n).isSome)
    (hr : Refers g src n m) : (src m).isSome := by
  obtain ⟨text, htext, hm⟩ := hr
  rw [expansion_eq, htext, bind_some, isSome_expandTokens] at h
  have hsome := h m ((mem_names g).mp hm)
  rw [expansion_eq] at hsome
  exact isSome_of_isSome_bind hsome

/-- A finite table without cycles is expanded from the names that lead nowhere on. -/
theorem isSome_expansion_of_acyclic (hfin : {n | (src n).isSome}.Finite)
    (hcycle : ∀ n, ¬Relation.TransGen (Refers g src) n n)
    (hclosed : ∀ n m, Refers g src n m → (src m).isSome) :
    ∀ n, (src n).isSome → (expansion g o src n).isSome := by
  have : Finite {n // (src n).isSome} := hfin.to_subtype
  let r : {n // (src n).isSome} → {n // (src n).isSome} → Prop :=
    fun a b => Relation.TransGen (Refers g src) b.1 a.1
  have : IsTrans _ r := ⟨fun _ _ _ hab hbc => hbc.trans hab⟩
  have : Std.Irrefl r := ⟨fun a => hcycle a.1⟩
  have hwf : WellFounded r := Finite.wellFounded_of_trans_of_irrefl r
  have hall : ∀ a : {n // (src n).isSome}, (expansion g o src a.1).isSome := by
    intro a
    induction a using hwf.induction with
    | _ a ih =>
      obtain ⟨text, htext⟩ := isSome_iff_exists.mp a.2
      rw [expansion_eq, htext, bind_some, isSome_expandTokens]
      intro m hm
      have hr : Refers g src a.1 m := ⟨text, htext, (mem_names g).mpr hm⟩
      exact ih ⟨m, hclosed _ _ hr⟩ (.single hr)
  exact fun n hn => hall ⟨n, hn⟩

/-- A finite table has its expansions exactly when it has no cycle and no open reference. -/
theorem isSome_expansion_iff (hfin : {n | (src n).isSome}.Finite) :
    (∀ n, (src n).isSome → (expansion g o src n).isSome) ↔
      (∀ n, ¬Relation.TransGen (Refers g src) n n) ∧ ∀ n m, Refers g src n m → (src m).isSome := by
  constructor
  · intro h
    have hsome : ∀ {n m}, Refers g src n m → (src n).isSome := by
      rintro n m ⟨text, htext, -⟩
      rw [htext]
      rfl
    refine ⟨fun n hcycle => ?_, fun n m hr => isSome_of_refers (h n (hsome hr)) hr⟩
    obtain ⟨m, hr, -⟩ := Relation.TransGen.head'_iff.mp hcycle
    exact not_cycle_of_isSome (h n (hsome hr)) hcycle
  · exact fun ⟨hcycle, hclosed⟩ => isSome_expansion_of_acyclic hfin hcycle hclosed

/-! ## What is left in an expansion -/

section Left

variable {o : Output α α}

theorem names_cons_of_ne {a : α} {rest : List α} (h : a ≠ g.sigil) :
    names g (a :: rest) = names g rest := by
  rw [names, scan_cons_lit g fun hsigil => h hsigil.1]
  rfl

theorem names_append_of_not_mem {pre : List α} (h : g.sigil ∉ pre) (rest : List α) :
    names g (pre ++ rest) = names g rest := by
  induction pre with
  | nil => rfl
  | cons a pre ih =>
    rw [mem_cons, not_or] at h
    rw [cons_append, names_cons_of_ne (Ne.symm h.1), ih h.2]

theorem names_sigil_cons {rest : List α} (h : StartsPlain g rest) :
    names g (g.sigil :: rest) = names g rest := by
  rw [names, scan_cons_lit g fun hsigil => hsigil.2 (takeWhile_of_startsPlain g h)]
  rfl

theorem startsPlain_of_names_cons {a : α} {rest : List α} (h : names g (a :: rest) = []) :
    names g rest = [] ∧ (a = g.sigil → StartsPlain g rest) := by
  have hlit : ¬(a = g.sigil ∧ rest.takeWhile g.isName ≠ []) := by
    intro href
    rw [names, scan_cons_ref g href] at h
    cases h
  rw [names, scan_cons_lit g hlit] at h
  refine ⟨h, fun hsigil => startsPlain_of_takeWhile g ?_⟩
  by_contra hne
  exact hlit ⟨hsigil, hne⟩

/-- Behind a text without references, what does not go on with a name is read as it stands. -/
theorem names_append_of_startsPlain {pre rest : List α} (hpre : names g pre = [])
    (hrest : StartsPlain g rest) : names g (pre ++ rest) = names g rest := by
  induction pre with
  | nil => rfl
  | cons a pre ih =>
    obtain ⟨hnames, hplain⟩ := startsPlain_of_names_cons hpre
    rw [cons_append]
    by_cases ha : a = g.sigil
    · subst ha
      have happend : StartsPlain g (pre ++ rest) := by
        cases pre with
        | nil => exact hrest
        | cons b pre => exact hplain rfl
      rw [names_sigil_cons happend, ih hnames]
    · rw [names_cons_of_ne ha, ih hnames]

/-- Nothing that is written turns into a reference or goes on with a name. -/
structure Output.Separates (g : Grammar α) (o : Output α α) : Prop where
  sigil : o.lit g.sigil = [g.sigil]
  lit : ∀ a, a ≠ g.sigil → g.sigil ∉ o.lit a
  litPlain : ∀ a, g.isName a = false → o.lit a ≠ [] ∧ StartsPlain g (o.lit a)
  wrap : ∀ v rest, names g v = [] → names g (o.wrap v ++ rest) = names g rest
  wrapPlain : ∀ v, o.wrap v ≠ [] ∧ StartsPlain g (o.wrap v)

theorem startsPlain_append {pre rest : List α} (h : pre ≠ [] ∧ StartsPlain g pre) :
    StartsPlain g (pre ++ rest) := by
  obtain ⟨a, pre, rfl⟩ := exists_cons_of_ne_nil h.1
  exact h.2

theorem startsPlain_expandTokens (ho : o.Separates g) {look : List α → Option (List α)}
    {text out : List α} (htext : StartsPlain g text)
    (h : expandTokens o look (scan g text) = some out) : StartsPlain g out := by
  cases text with
  | nil =>
    rw [scan] at h
    obtain rfl := some.inj h
    exact htext
  | cons a rest =>
    by_cases href : a = g.sigil ∧ rest.takeWhile g.isName ≠ []
    · rw [scan_cons_ref g href] at h
      obtain ⟨v, -, h⟩ := bind_eq_some_iff.mp h
      obtain ⟨_, -, rfl⟩ := map_eq_some_iff.mp h
      exact startsPlain_append (ho.wrapPlain v)
    · rw [scan_cons_lit g href] at h
      obtain ⟨_, -, rfl⟩ := map_eq_some_iff.mp h
      exact startsPlain_append (ho.litPlain a (htext a rfl))

theorem names_expandTokens (ho : o.Separates g) {look : List α → Option (List α)}
    (hlook : ∀ name v, look name = some v → names g v = []) : ∀ {text out : List α},
    expandTokens o look (scan g text) = some out → names g out = [] := by
  intro text
  induction text using scan.induct g with
  | case1 =>
    intro out h
    rw [scan] at h
    obtain rfl := some.inj h
    simp [names, scan]
  | case2 a rest href ih =>
    intro out h
    rw [scan_cons_ref g href] at h
    obtain ⟨v, hv, h⟩ := bind_eq_some_iff.mp h
    obtain ⟨out', hout, rfl⟩ := map_eq_some_iff.mp h
    rw [ho.wrap v out' (hlook _ v hv), ih hout]
  | case3 a rest hlit ih =>
    intro out h
    rw [scan_cons_lit g hlit] at h
    obtain ⟨out', hout, rfl⟩ := map_eq_some_iff.mp h
    by_cases ha : a = g.sigil
    · have hrest : StartsPlain g rest := startsPlain_of_takeWhile g <| by
        by_contra hne
        exact hlit ⟨ha, hne⟩
      rw [ha, ho.sigil, singleton_append,
        names_sigil_cons (startsPlain_expandTokens ho hrest hout), ih hout]
    · rw [names_append_of_not_mem (ho.lit a ha), ih hout]

theorem names_expandAt (ho : o.Separates g) : ∀ {d : ℕ} {name v : List α},
    expandAt g o src d name = some v → names g v = []
  | 0, _, _, h => nomatch h
  | d + 1, name, v, h => by
    obtain ⟨text, -, h⟩ := bind_eq_some_iff.mp h
    exact names_expandTokens ho (fun _ _ => names_expandAt ho) h

/-- No reference is left in an expanded text. -/
theorem names_expandText (ho : o.Separates g) {text out : List α}
    (h : expandText g o src text = some out) : names g out = [] := by
  refine names_expandTokens ho (fun name v hv => ?_) h
  obtain ⟨d, hd⟩ := (expansion_eq_some_iff g o).mp hv
  exact names_expandAt ho hd

end Left

/-! ## Two ways of writing -/

variable {o' : Output α β}

/-- Two outputs that write the characters of `tokens` alike, and references alike. -/
theorem expandTokens_congr_output (hwrap : o.wrap = o'.wrap) {look : List α → Option (List β)} :
    ∀ {tokens : List (Token α)}, (∀ a, Token.lit a ∈ tokens → o.lit a = o'.lit a) →
      expandTokens o look tokens = expandTokens o' look tokens
  | [], _ => rfl
  | .lit a :: tokens, h => by
    rw [expandTokens, expandTokens, h a mem_cons_self,
      expandTokens_congr_output hwrap fun b hb => h b (mem_cons_of_mem _ hb)]
  | .ref name :: tokens, h => by
    rw [expandTokens, expandTokens, hwrap,
      expandTokens_congr_output hwrap fun b hb => h b (mem_cons_of_mem _ hb)]

theorem expansion_congr_output (hwrap : o.wrap = o'.wrap)
    (h : ∀ name text, src name = some text → ∀ a, Token.lit a ∈ scan g text → o.lit a = o'.lit a)
    (name : List α) : expansion g o src name = expansion g o' src name := by
  have hat : ∀ (d : ℕ) (name : List α), expandAt g o src d name = expandAt g o' src d name := by
    intro d
    induction d with
    | zero => exact fun _ => rfl
    | succ d ih =>
      intro name
      rw [expandAt, expandAt]
      cases htext : src name with
      | none => rfl
      | some text =>
        rw [bind_some, bind_some, funext ih]
        exact expandTokens_congr_output hwrap (h name text htext)
  refine Option.ext fun v => ?_
  simp only [expansion_eq_some_iff, hat]

/-- Where one output writes some characters with more and no character with less, texts that come
out alike have only characters that both write with equally much. -/
theorem length_lit_eq_of_expandTokens (hwrap : o.wrap = o'.wrap)
    (hle : ∀ a, (o'.lit a).length ≤ (o.lit a).length) {look : List α → Option (List β)} :
    ∀ {tokens : List (Token α)} {u v : List β}, expandTokens o look tokens = some u →
      expandTokens o' look tokens = some v → v.length ≤ u.length ∧ (v.length = u.length →
        ∀ a, Token.lit a ∈ tokens → (o'.lit a).length = (o.lit a).length)
  | [], u, v, hu, hv => by
    obtain rfl := some.inj hu
    obtain rfl := some.inj hv
    simp
  | .lit a :: tokens, u, v, hu, hv => by
    obtain ⟨u', hu', rfl⟩ := map_eq_some_iff.mp hu
    obtain ⟨v', hv', rfl⟩ := map_eq_some_iff.mp hv
    obtain ⟨hlen, hall⟩ := length_lit_eq_of_expandTokens hwrap hle hu' hv'
    have ha := hle a
    rw [length_append, length_append]
    refine ⟨by omega, fun heq b hb => ?_⟩
    rcases mem_cons.mp hb with hb | hb
    · obtain rfl := Token.lit.inj hb
      omega
    · exact hall (by omega) b hb
  | .ref name :: tokens, u, v, hu, hv => by
    obtain ⟨w, hw, hu⟩ := bind_eq_some_iff.mp hu
    obtain ⟨w', hw', hv⟩ := bind_eq_some_iff.mp hv
    obtain rfl := some.inj (hw.symm.trans hw')
    obtain ⟨u', hu', rfl⟩ := map_eq_some_iff.mp hu
    obtain ⟨v', hv', rfl⟩ := map_eq_some_iff.mp hv
    obtain ⟨hlen, hall⟩ := length_lit_eq_of_expandTokens hwrap hle hu' hv'
    rw [length_append, length_append, hwrap]
    refine ⟨by omega, fun heq b hb => ?_⟩
    rcases mem_cons.mp hb with hb | hb
    · cases hb
    · exact hall (by omega) b hb

end RefText
