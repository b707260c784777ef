import Mathlib

/-!
# Texts with named references

A text refers to other texts by a sigil and a name, as in `$name`. `scan` cuts a text into
references and single characters, `renameText` writes other names in, and `expansion` reads
a table of texts with every reference replaced by its expansion, `none` where a name is not
in the table or leads back to itself.

Renaming commutes with scanning (`scan_renameText`), so a table and a renamed copy of it
have the same expansions (`expansion_rename`). In particular a table may grow without a
change to the expansions it has (`expansion_mono`).
-/

set_option linter.unusedSectionVars false

namespace RefText

open List Option

variable {α β : Type} [DecidableEq α]

/-- How a reference is written. A name is a longest run of name characters. -/
structure Grammar (α : Type) where
  sigil : α
  isName : α → Bool
  sigil_not_name : isName sigil = false

inductive Token (α : Type) where
  | lit (a : α)
  | ref (name : List α)
  deriving DecidableEq

variable (g : Grammar α)

/-! ## Scanning -/

/-- A sigil without a name is a character of the text. -/
def scan : List α → List (Token α)
  | [] => []
  | a :: rest =>
    if a = g.sigil ∧ rest.takeWhile g.isName ≠ [] then
      .ref (rest.takeWhile g.isName) :: scan (rest.dropWhile g.isName)
    else .lit a :: scan rest
termination_by text => text.length
decreasing_by
  · have := (List.dropWhile_sublist (l := rest) g.isName).length_le
    simp only [List.length_cons]
    omega
  · simp

def render : Token α → List α
  | .lit a => [a]
  | .ref name => g.sigil :: name

/-- The names a text refers to. -/
def names (text : List α) : List (List α) :=
  (scan g text).filterMap fun
    | .lit _ => none
    | .ref name => some name

theorem mem_names {text name : List α} : name ∈ names g text ↔ Token.ref name ∈ scan g text := by
  simp only [names, mem_filterMap]
  constructor
  · rintro ⟨token, htoken, h⟩
    cases token with
    | lit a => cases h
    | ref n =>
      obtain rfl := some.inj h
      exact htoken
  · exact fun h => ⟨_, h, rfl⟩

theorem scan_cons_ref {a : α} {rest : List α} (h : a = g.sigil ∧ rest.takeWhile g.isName ≠ []) :
    scan g (a :: rest) = .ref (rest.takeWhile g.isName) :: scan g (rest.dropWhile g.isName) := by
  rw [scan, if_pos h]

theorem scan_cons_lit {a : α} {rest : List α} (h : ¬(a = g.sigil ∧ rest.takeWhile g.isName ≠ [])) :
    scan g (a :: rest) = .lit a :: scan g rest := by
  rw [scan, if_neg h]

theorem render_scan : ∀ text : List α, (scan g text).flatMap (render g) = text := by
  intro text
  induction text using scan.induct g with
  | case1 => simp [scan]
  | case2 a rest h ih =>
    rw [scan_cons_ref g h, flatMap_cons, ih, render, h.1, cons_append, takeWhile_append_dropWhile]
  | case3 a rest h ih => rw [scan_cons_lit g h, flatMap_cons, ih, render, singleton_append]

/-- A name that can be read back. -/
def IsName (name : List α) : Prop := name ≠ [] ∧ ∀ a ∈ name, g.isName a = true

theorem isName_of_mem_scan {name : List α} : ∀ text : List α,
    Token.ref name ∈ scan g text → IsName g name := by
  intro text
  induction text using scan.induct g with
  | case1 => simp [scan]
  | case2 a rest h ih =>
    rw [scan_cons_ref g h]
    intro hmem
    rcases mem_cons.mp hmem with heq | hmem
    · obtain rfl := Token.ref.inj heq
      exact ⟨h.2, fun b hb => mem_takeWhile_imp hb⟩
    · exact ih hmem
  | case3 a rest h ih =>
    rw [scan_cons_lit g h]
    intro hmem
    rcases mem_cons.mp hmem with heq | hmem
    · cases heq
    · exact ih hmem

/-! ## Renaming -/

def Token.rename (ρ : List α → List α) : Token α → Token α
  | .lit a => .lit a
  | .ref name => .ref (ρ name)

def renameText (ρ : List α → List α) (text : List α) : List α :=
  (scan g text).flatMap fun token => render g (token.rename ρ)

/-- No name goes on at the start of the text. -/
def StartsPlain (text : List α) : Prop := ∀ a ∈ text.head?, g.isName a = false

variable {text : List α}

theorem takeWhile_of_startsPlain (h : StartsPlain g text) : text.takeWhile g.isName = [] := by
  cases text with
  | nil => rfl
  | cons a rest =>
    rw [takeWhile_cons, if_neg]
    simp [h a rfl]

theorem startsPlain_of_takeWhile (h : text.takeWhile g.isName = []) : StartsPlain g text := by
  cases text with
  | nil => exact fun a ha => nomatch ha
  | cons a rest =>
    intro b hb
    obtain rfl := some.inj hb
    rw [takeWhile_cons] at h
    split_ifs at h with hname
    · exact Bool.eq_false_iff.mpr hname

theorem startsPlain_dropWhile (text : List α) : StartsPlain g (text.dropWhile g.isName) := by
  intro a ha
  exact Bool.eq_false_iff.mpr (head?_dropWhile_not g.isName text |> fun h => by
    rw [Option.mem_def.mp ha] at h
    simpa using h)

variable {ρ : List α → List α}

theorem startsPlain_renameText (h : StartsPlain g text) : StartsPlain g (renameText g ρ text) := by
  cases text with
  | nil => simpa [renameText, scan] using h
  | cons a rest =>
    by_cases href : a = g.sigil ∧ rest.takeWhile g.isName ≠ []
    · rw [renameText, scan_cons_ref g href, flatMap_cons]
      intro b hb
      obtain rfl : g.sigil = b := some.inj hb
      exact g.sigil_not_name
    · rw [renameText, scan_cons_lit g href, flatMap_cons]
      intro b hb
      obtain rfl : a = b := some.inj hb
      exact h a rfl

theorem takeWhile_append_of_startsPlain {name tail : List α}
    (hname : ∀ a ∈ name, g.isName a = true) (htail : StartsPlain g tail) :
    (name ++ tail).takeWhile g.isName = name ∧ (name ++ tail).dropWhile g.isName = tail := by
  have htake := takeWhile_of_startsPlain g htail
  have hdrop : tail.dropWhile g.isName = tail := by
    have h := takeWhile_append_dropWhile (p := g.isName) (l := tail)
    rwa [htake, nil_append] at h
  constructor
  · rw [takeWhile_append_of_pos hname, htake, append_nil]
  · rw [dropWhile_append_of_pos hname, hdrop]

/-- Renaming to names changes the references and nothing else. -/
theorem scan_renameText (hρ : ∀ name, IsName g name → IsName g (ρ name)) :
    ∀ text : List α, scan g (renameText g ρ text) = (scan g text).map (Token.rename ρ) := by
  intro text
  induction text using scan.induct g with
  | case1 => simp [renameText, scan]
  | case2 a rest h ih =>
    have hname : IsName g (ρ (rest.takeWhile g.isName)) :=
      hρ _ ⟨h.2, fun b hb => mem_takeWhile_imp hb⟩
    have htail : StartsPlain g (renameText g ρ (rest.dropWhile g.isName)) :=
      startsPlain_renameText g (startsPlain_dropWhile g rest)
    obtain ⟨htake, hdrop⟩ := takeWhile_append_of_startsPlain g hname.2 htail
    have hrename : renameText g ρ (a :: rest) = g.sigil ::
        (ρ (rest.takeWhile g.isName) ++ renameText g ρ (rest.dropWhile g.isName)) := by
      rw [renameText, scan_cons_ref g h]
      rfl
    rw [hrename, scan_cons_ref g ⟨rfl, by rw [htake]; exact hname.1⟩, htake, hdrop, ih,
      scan_cons_ref g h]
    rfl
  | case3 a rest h ih =>
    have hrename : renameText g ρ (a :: rest) = a :: renameText g ρ rest := by
      rw [renameText, scan_cons_lit g h]
      rfl
    have hlit : ¬(a = g.sigil ∧ (renameText g ρ rest).takeWhile g.isName ≠ []) := by
      rintro ⟨hsigil, htake⟩
      have hrest : rest.takeWhile g.isName = [] := by
        by_contra hne
        exact h ⟨hsigil, hne⟩
      exact htake (takeWhile_of_startsPlain g
        (startsPlain_renameText g (startsPlain_of_takeWhile g hrest)))
    rw [hrename, scan_cons_lit g hlit, ih, scan_cons_lit g h]
    rfl

theorem renameText_congr {ρ ρ' : List α → List α} {text : List α}
    (h : ∀ name ∈ names g text, ρ name = ρ' name) : renameText g ρ text = renameText g ρ' text := by
  unfold renameText
  refine flatMap_congr fun token htoken => ?_
  cases token with
  | lit a => rfl
  | ref name => rw [Token.rename, Token.rename, h name ((mem_names g).mpr htoken)]

/-- A text whose names stay is not changed. -/
theorem renameText_eq_self (h : ∀ name ∈ names g text, ρ name = name) :
    renameText g ρ text = text := by
  have hrename : renameText g ρ text = renameText g id text := renameText_congr g h
  have hid : ∀ token : Token α, token.rename id = token := by
    rintro (_ | _) <;> rfl
  rw [hrename]
  simp only [renameText, hid]
  exact render_scan g text

/-- Renaming twice is renaming by both. -/
theorem renameText_renameText {ρ σ : List α → List α}
    (hρ : ∀ name, IsName g name → IsName g (ρ name)) (text : List α) :
    renameText g σ (renameText g ρ text) = renameText g (fun name => σ (ρ name)) text := by
  have htoken : ∀ token : Token α,
      (token.rename ρ).rename σ = token.rename fun name => σ (ρ name) := by
    rintro (_ | _) <;> rfl
  rw [renameText, scan_renameText g hρ, flatMap_map]
  simp only [htoken]
  rfl

theorem mem_names_renameText (hρ : ∀ name, IsName g name → IsName g (ρ name)) {text name : List α} :
    name ∈ names g (renameText g ρ text) ↔ ∃ n ∈ names g text, ρ n = name := by
  rw [mem_names, scan_renameText g hρ, List.mem_map]
  constructor
  · rintro ⟨token, htoken, h⟩
    cases token with
    | lit a => cases h
    | ref n => exact ⟨n, (mem_names g).mpr htoken, Token.ref.inj h⟩
  · rintro ⟨n, hn, rfl⟩
    exact ⟨_, (mem_names g).mp hn, rfl⟩

/-! ## Expansion -/

/-- How an expansion is written : the characters of a text and the expanded references. -/
structure Output (α β : Type) where
  lit : α → List β
  wrap : List β → List β

variable (o : Output α β)

def expandTokens (look : List α → Option (List β)) : List (Token α) → Option (List β)
  | [] => some []
  | .lit a :: tokens => (expandTokens look tokens).map (o.lit a ++ ·)
  | .ref name :: tokens =>
    (look name).bind fun v => (expandTokens look tokens).map (o.wrap v ++ ·)

theorem expandTokens_congr {look look' : List α → Option (List β)} :
    ∀ {tokens : List (Token α)}, (∀ name, Token.ref name ∈ tokens → look name = look' name) →
      expandTokens o look tokens = expandTokens o look' tokens
  | [], _ => rfl
  | .lit a :: tokens, h => by
    rw [expandTokens, expandTokens,
      expandTokens_congr fun name hname => h name (mem_cons_of_mem _ hname)]
  | .ref name :: tokens, h => by
    rw [expandTokens, expandTokens, h name mem_cons_self,
      expandTokens_congr fun name hname => h name (mem_cons_of_mem _ hname)]

theorem expandTokens_rename {look : List α → Option (List β)} {ρ : List α → List α} :
    ∀ tokens : List (Token α), expandTokens o look (tokens.map (Token.rename ρ)) =
      expandTokens o (fun name => look (ρ name)) tokens
  | [] => rfl
  | .lit a :: tokens => by
    rw [map_cons, Token.rename, expandTokens, expandTokens, expandTokens_rename tokens]
  | .ref name :: tokens => by
    rw [map_cons, Token.rename, expandTokens, expandTokens, expandTokens_rename tokens]

/-- A text is expanded when each of its names is. -/
theorem isSome_expandTokens {look : List α → Option (List β)} :
    ∀ {tokens : List (Token α)}, (expandTokens o look tokens).isSome ↔
      ∀ name, Token.ref name ∈ tokens → (look name).isSome
  | [] => by simp [expandTokens]
  | .lit a :: tokens => by
    rw [expandTokens, isSome_map, isSome_expandTokens]
    simp
  | .ref name :: tokens => by
    have ih := @isSome_expandTokens look tokens
    rw [expandTokens]
    cases hlook : look name with
    | none =>
      simp only [bind_none, isSome_none, Bool.false_eq_true, false_iff, not_forall]
      exact ⟨name, mem_cons_self, by simp [hlook]⟩
    | some v =>
      rw [bind_some, isSome_map, ih]
      constructor
      · intro h n hn
        rcases mem_cons.mp hn with heq | hn
        · obtain rfl := Token.ref.inj heq
          simp [hlook]
        · exact h n hn
      · exact fun h n hn => h n (mem_cons_of_mem _ hn)

/-- A smaller table of expansions gives the same ones. -/
theorem expandTokens_mono {look look' : List α → Option (List β)}
    (h : ∀ name v, look name = some v → look' name = some v) {tokens : List (Token α)}
    {v : List β} (hv : expandTokens o look tokens = some v) :
    expandTokens o look' tokens = some v := by
  have hsome := (isSome_expandTokens o).mp (isSome_of_mem hv)
  rw [← hv]
  refine (expandTokens_congr o fun name hname => ?_).symm
  obtain ⟨w, hw⟩ := isSome_iff_exists.mp (hsome name hname)
  rw [hw, h name w hw]

/-- The expansion of a name, at most `d` references deep. -/
def expandAt (src : List α → Option (List α)) : ℕ → List α → Option (List β)
  | 0, _ => none
  | d + 1, name => (src name).bind fun text => expandTokens o (expandAt src d) (scan g text)

theorem expandAt_succ {src : List α → Option (List α)} : ∀ {d : ℕ} {name : List α} {v : List β},
    expandAt g o src d name = some v → expandAt g o src (d + 1) name = some v
  | 0, _, _, h => by simp [expandAt] at h
  | d + 1, name, v, h => by
    rw [expandAt] at h ⊢
    obtain ⟨text, htext, hv⟩ := bind_eq_some_iff.mp h
    rw [htext, bind_some]
    exact expandTokens_mono o (fun n w => expandAt_succ) hv

variable {src : List α → Option (List α)}

theorem expandAt_mono {d d' : ℕ} (hd : d ≤ d') {name : List α}
    {v : List β} (h : expandAt g o src d name = some v) : expandAt g o src d' name = some v := by
  induction hd with
  | refl => exact h
  | step _ ih => exact expandAt_succ g o ih

open Classical in
/-- The expansion of a name. -/
noncomputable def expansion (src : List α → Option (List α)) (name : List α) : Option (List β) :=
  if h : ∃ d, (expandAt g o src d name).isSome then expandAt g o src h.choose name else none

theorem expansion_eq_some_iff {name : List α} {v : List β} :
    expansion g o src name = some v ↔ ∃ d, expandAt g o src d name = some v := by
  unfold expansion
  split_ifs with h
  · constructor
    · exact fun hv => ⟨_, hv⟩
    · rintro ⟨d, hd⟩
      obtain ⟨w, hw⟩ := isSome_iff_exists.mp h.choose_spec
      have h1 := expandAt_mono g o (le_max_left d h.choose) hd
      have h2 := expandAt_mono g o (le_max_right d h.choose) hw
      rw [hw, ← h1, h2]
  · simp only [false_iff]
    exact fun ⟨d, hd⟩ => h ⟨d, isSome_of_mem hd⟩

/-- Finitely many names are expanded at one depth. -/
theorem exists_expandAt {src : List α → Option (List α)} : ∀ {tokens : List (Token α)} {v : List β},
    expandTokens o (expansion g o src) tokens = some v →
      ∃ d, expandTokens o (expandAt g o src d) tokens = some v
  | [], _, h => ⟨0, h⟩
  | .lit a :: tokens, v, h => by
    obtain ⟨w, hw, rfl⟩ := map_eq_some_iff.mp h
    obtain ⟨d, hd⟩ := exists_expandAt hw
    exact ⟨d, by rw [expandTokens, hd]; rfl⟩
  | .ref name :: tokens, v, h => by
    obtain ⟨u, hu, h⟩ := bind_eq_some_iff.mp h
    obtain ⟨w, hw, rfl⟩ := map_eq_some_iff.mp h
    obtain ⟨d, hd⟩ := exists_expandAt hw
    obtain ⟨e, he⟩ := (expansion_eq_some_iff g o).mp hu
    refine ⟨max d e, ?_⟩
    rw [expandTokens, expandAt_mono g o (le_max_right d e) he, bind_some,
      expandTokens_mono o (fun n w => expandAt_mono g o (le_max_left d e)) hd]
    rfl

/-- A name is expanded by expanding its text. -/
theorem expansion_eq (src : List α → Option (List α)) (name : List α) : expansion g o src name =
      (src name).bind fun text => expandTokens o (expansion g o src) (scan g text) := by
  refine Option.ext fun v => ?_
  rw [expansion_eq_some_iff, bind_eq_some_iff]
  constructor
  · rintro ⟨_ | d, hd⟩
    · cases hd
    · obtain ⟨text, htext, hv⟩ := bind_eq_some_iff.mp hd
      exact ⟨text, htext,
        expandTokens_mono o (fun n w hw => (expansion_eq_some_iff g o).mpr ⟨d, hw⟩) hv⟩
  · rintro ⟨text, htext, hv⟩
    obtain ⟨d, hd⟩ := exists_expandAt g o hv
    exact ⟨d + 1, by rw [expandAt, htext, bind_some, hd]⟩

/-- A text expanded over a table. -/
noncomputable def expandText (src : List α → Option (List α)) (text : List α) : Option (List β) :=
  expandTokens o (expansion g o src) (scan g text)

theorem isSome_expandText : (expandText g o src text).isSome ↔
      ∀ name ∈ names g text, (expansion g o src name).isSome := by
  simp only [expandText, isSome_expandTokens, mem_names]

/-! ## Renamed tables -/

/-- On the names of `D`, the table `src'` is `src` renamed. -/
structure Renames (ρ : List α → List α) (D : Set (List α)) (src src' : List α → Option (List α)) :
    Prop where
  isName : ∀ name, IsName g name → IsName g (ρ name)
  table : ∀ name ∈ D, src' (ρ name) = (src name).map (renameText g ρ)
  closed : ∀ name ∈ D, ∀ text, src name = some text → ∀ n ∈ names g text, n ∈ D

theorem expandAt_rename {ρ : List α → List α} {D : Set (List α)}
    {src src' : List α → Option (List α)} (h : Renames g ρ D src src') :
    ∀ {d : ℕ} {name : List α}, name ∈ D → expandAt g o src' d (ρ name) = expandAt g o src d name
  | 0, _, _ => rfl
  | d + 1, name, hname => by
    rw [expandAt, expandAt, h.table name hname]
    cases htext : src name with
    | none => rfl
    | some text =>
      rw [map_some, bind_some, bind_some, scan_renameText g h.isName, expandTokens_rename]
      refine expandTokens_congr o fun n hn => expandAt_rename h ?_
      exact h.closed name hname text htext n ((mem_names g).mpr hn)

theorem expansion_rename {D : Set (List α)}
    {src src' : List α → Option (List α)} (h : Renames g ρ D src src') {name : List α}
    (hname : name ∈ D) : expansion g o src' (ρ name) = expansion g o src name := by
  refine Option.ext fun v => ?_
  simp only [expansion_eq_some_iff, expandAt_rename g o h hname]

theorem expandText_rename {D : Set (List α)}
    {src src' : List α → Option (List α)} (h : Renames g ρ D src src') {text : List α}
    (htext : ∀ name ∈ names g text, name ∈ D) :
    expandText g o src' (renameText g ρ text) = expandText g o src text := by
  rw [expandText, scan_renameText g h.isName, expandTokens_rename]
  exact expandTokens_congr o fun n hn => expansion_rename g o h (htext n ((mem_names g).mpr hn))

/-- A table that another one extends keeps the expansions it has. -/
theorem expansion_mono {src src' : List α → Option (List α)}
    (h : ∀ name text, src name = some text → src' name = some text) {name : List α} {v : List β}
    (hv : expansion g o src name = some v) : expansion g o src' name = some v := by
  have hat : ∀ {d : ℕ} {name : List α} {v : List β}, expandAt g o src d name = some v →
      expandAt g o src' d name = some v := by
    intro d
    induction d with
    | zero => exact fun hv => nomatch hv
    | succ d ih =>
      intro name v hv
      obtain ⟨text, htext, hv⟩ := bind_eq_some_iff.mp hv
      rw [expandAt, h name text htext, bind_some]
      exact expandTokens_mono o (fun n w => ih) hv
  obtain ⟨d, hd⟩ := (expansion_eq_some_iff g o).mp hv
  exact (expansion_eq_some_iff g o).mpr ⟨d, hat hd⟩

end RefText
