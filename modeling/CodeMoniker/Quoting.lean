import Mathlib

/-!
# Escapes and quoted lists

A text is quoted by writing `esc` before every `esc` and every `quote` of it, and is read back
by dropping each `esc` and keeping what follows it. A text that was never quoted is read back
as it is when no `esc` of it has a successor (`unescape_eq_self_iff`).

`splitQuoted` splits a list of quoted entries at the separators outside the quotes, and drops
the `esc`s inside the quotes. An entry that is written between quotes without escapes is one of
its entries only if it has neither an `esc` nor a `quote` : every `quote` that the splitter
keeps costs an `esc` that it drops (`count_pushed_le`), so the entries cannot make up for what
they lose (`splitQuoted_joinQuoted_iff`).
-/

namespace Quoting

open List

variable {α : Type*}

/-! ## Escapes -/

section Escapes

variable [DecidableEq α] {esc quote : α}

def escape (esc quote : α) (v : List α) : List α :=
  v.flatMap fun c => if c = esc ∨ c = quote then [esc, c] else [c]

def unescape (esc : α) : List α → List α
  | [] => []
  | [c] => [c]
  | c :: d :: rest => if c = esc then d :: unescape esc rest else c :: unescape esc (d :: rest)

@[simp] theorem escape_nil : escape esc quote [] = [] := rfl

theorem escape_cons (c : α) (v : List α) : escape esc quote (c :: v) =
    (if c = esc ∨ c = quote then [esc, c] else [c]) ++ escape esc quote v := rfl

theorem unescape_esc_cons (d : α) (rest : List α) :
    unescape esc (esc :: d :: rest) = d :: unescape esc rest := if_pos rfl

theorem unescape_cons_of_ne {c : α} (h : c ≠ esc) (rest : List α) :
    unescape esc (c :: rest) = c :: unescape esc rest := by
  cases rest with
  | nil => rfl
  | cons d rest => exact if_neg h

theorem unescape_escape_append (v rest : List α) :
    unescape esc (escape esc quote v ++ rest) = v ++ unescape esc rest := by
  induction v with
  | nil => rfl
  | cons c v ih =>
    rw [escape_cons]
    by_cases hc : c = esc ∨ c = quote
    · rw [if_pos hc, append_assoc, cons_append, cons_append, nil_append,
        unescape_esc_cons, ih, cons_append]
    · rw [if_neg hc, append_assoc, cons_append, nil_append,
        unescape_cons_of_ne fun h => hc (Or.inl h), ih, cons_append]

theorem mem_of_mem_escape {c : α} (hc : c ≠ esc) {v : List α} (h : c ∈ escape esc quote v) :
    c ∈ v := by
  obtain ⟨d, hd, hmem⟩ := mem_flatMap.mp h
  split_ifs at hmem
  · rcases mem_cons.mp hmem with rfl | hmem
    · exact absurd rfl hc
    · exact mem_singleton.mp hmem ▸ hd
  · exact mem_singleton.mp hmem ▸ hd

theorem mem_escape {c : α} {v : List α} (h : c ∈ v) : c ∈ escape esc quote v :=
  mem_flatMap.mpr ⟨c, h, by split <;> simp⟩

/-- What was escaped is read back. -/
theorem unescape_escape (v : List α) : unescape esc (escape esc quote v) = v := by
  have h : unescape esc (escape esc quote v ++ []) = v ++ unescape esc [] :=
    unescape_escape_append v []
  rwa [append_nil, unescape, append_nil] at h

theorem length_unescape_le : ∀ v : List α, (unescape esc v).length ≤ v.length
  | [] => le_refl _
  | [c] => le_refl _
  | c :: d :: rest => by
    rw [unescape]
    split
    · have := length_unescape_le rest
      simp only [length_cons]
      omega
    · have := length_unescape_le (d :: rest)
      simp only [length_cons] at this ⊢
      omega

/-- A text is read as it is exactly when no escape of it has a successor. -/
theorem unescape_eq_self_iff : ∀ v : List α, unescape esc v = v ↔ esc ∉ v.dropLast
  | [] => by simp [unescape]
  | [c] => by simp [unescape]
  | c :: d :: rest => by
    rw [dropLast_cons_cons, mem_cons, unescape]
    by_cases hc : c = esc
    · rw [if_pos hc]
      refine iff_of_false (fun h => ?_) fun h => h (Or.inl hc.symm)
      have hshort : (unescape esc rest).length ≤ rest.length := length_unescape_le rest
      have hlong := congrArg List.length h
      simp only [length_cons] at hlong
      omega
    · rw [if_neg hc, cons_inj_right, unescape_eq_self_iff (d :: rest)]
      exact ⟨fun h hmem => hmem.elim (fun heq => hc heq.symm) h, fun h hmem => h (Or.inr hmem)⟩

end Escapes

/-! ## Entries -/

section Trim

variable (blank : α → Bool)

def trim (v : List α) : List α := (v.dropWhile blank).rdropWhile blank

variable {blank}

theorem trim_blank_append {a : List α} (h : ∀ c ∈ a, blank c = true) (v : List α) :
    trim blank (a ++ v) = trim blank v := by
  rw [trim, dropWhile_append_of_pos h, trim]

theorem rdropWhile_append_blank {b : List α} (h : ∀ c ∈ b, blank c = true) (v : List α) :
    (v ++ b).rdropWhile blank = v.rdropWhile blank := by
  rw [rdropWhile, reverse_append,
    dropWhile_append_of_pos fun c hc => h c (mem_reverse.mp hc), rdropWhile]

theorem trim_append_blank {b : List α} (h : ∀ c ∈ b, blank c = true) (v : List α) :
    trim blank (v ++ b) = trim blank v := by
  rw [trim, trim, dropWhile_append]
  split
  · rename_i hnil
    rw [List.isEmpty_iff.mp hnil, dropWhile_eq_nil_iff.mpr h]
  · exact rdropWhile_append_blank h _

theorem length_trim_le (v : List α) : (trim blank v).length ≤ v.length := by
  have hlast : trim blank v <+: v.dropWhile blank := List.rdropWhile_prefix _ _
  exact hlast.length_le.trans (v.dropWhile_suffix blank).length_le

theorem rdropWhile_append_of_last {u : List α} (h : ∀ c ∈ u.getLast?, blank c = false) :
    ∀ v : List α, (u ++ v).rdropWhile blank = u ++ v.rdropWhile blank := by
  intro v
  induction v using reverseRecOn with
  | nil =>
    rw [append_nil, rdropWhile_nil, append_nil, rdropWhile_eq_self_iff]
    exact fun hl => by simp [h _ (getLast?_eq_some_getLast hl)]
  | append_singleton v c ih =>
    rw [← append_assoc, rdropWhile_concat, rdropWhile_concat]
    split
    · exact ih
    · rw [append_assoc]

theorem trim_eq_self {v : List α} (hhead : ∀ c ∈ v.head?, blank c = false)
    (hlast : ∀ c ∈ v.getLast?, blank c = false) : trim blank v = v := by
  have hdrop : v.dropWhile blank = v := by
    cases v with
    | nil => rfl
    | cons c v => exact dropWhile_cons_of_neg (by simp [hhead c rfl])
  rw [trim, hdrop, rdropWhile_eq_self_iff]
  exact fun hne => by simp [hlast _ (getLast?_eq_some_getLast hne)]

end Trim

section Entries

variable [DecidableEq α] (blank : α → Bool)

/-- The entry of a piece of text : none when the piece is blank. -/
def entry (v : List α) : List (List α) := if trim blank v = [] then [] else [trim blank v]

variable {blank}

theorem count_dropWhile {c : α} (hc : blank c = false) (v : List α) :
    (v.dropWhile blank).count c = v.count c := by
  have hsplit := congrArg (List.count c) (takeWhile_append_dropWhile (p := blank) (l := v))
  have hnone : (v.takeWhile blank).count c = 0 :=
    count_eq_zero.2 fun hmem => by simp [mem_takeWhile_imp hmem] at hc
  rw [count_append, hnone, Nat.zero_add] at hsplit
  exact hsplit

theorem count_trim {c : α} (hc : blank c = false) (v : List α) :
    (trim blank v).count c = v.count c := by
  rw [trim, rdropWhile, count_reverse, count_dropWhile hc, count_reverse, count_dropWhile hc]

theorem count_entry {c : α} (hc : blank c = false) (v : List α) :
    (entry blank v).flatten.count c = v.count c := by
  rw [entry, ← count_trim hc v]
  split
  · rename_i hnil
    rw [hnil]
    rfl
  · rw [flatten_singleton]

theorem count_flatMap_entry {c : α} (hc : blank c = false) (vs : List (List α)) :
    (vs.flatMap (entry blank)).flatten.count c = vs.flatten.count c := by
  induction vs with
  | nil => rfl
  | cons v vs ih =>
    rw [flatMap_cons, flatten_append, count_append, count_entry hc, ih, flatten_cons, count_append]

/-- Blanks at the end of an escaped text were not escaped. -/
theorem rdropWhile_escape {esc quote : α} {blank : α → Bool} (hesc : blank esc = false)
    (hquote : blank quote = false) (v : List α) :
    (escape esc quote v).rdropWhile blank = escape esc quote (v.rdropWhile blank) := by
  induction v using reverseRecOn with
  | nil => rfl
  | append_singleton v c ih =>
    have hsplit : escape esc quote (v ++ [c]) = escape esc quote v ++ escape esc quote [c] :=
      flatMap_append
    have hsingle : escape esc quote [c] = if c = esc ∨ c = quote then [esc, c] else [c] :=
      flatMap_singleton _ _
    rw [rdropWhile_concat, hsplit]
    by_cases hc : c = esc ∨ c = quote
    · have hblank : blank c = false := by rcases hc with rfl | rfl <;> assumption
      rw [if_neg (by simp [hblank]), hsplit, hsingle, if_pos hc]
      exact rdropWhile_eq_self_iff.mpr fun hl => by simp [hblank]
    · rw [hsingle, if_neg hc, rdropWhile_concat]
      split
      · exact ih
      · rw [hsplit, hsingle, if_neg hc]

end Entries

/-! ## Splitting quoted lists -/

section Join

variable (quote sep : α)

/-- Entries between quotes, with separators between them. -/
def joinQuoted : List (List α) → List α
  | [] => []
  | [v] => quote :: (v ++ [quote])
  | v :: w :: vs => quote :: (v ++ quote :: sep :: joinQuoted (w :: vs))

theorem length_le_joinQuoted : ∀ {vs : List (List α)} {v : List α}, v ∈ vs →
    v.length ≤ (joinQuoted quote sep vs).length
  | [u], v, h => by
    rw [mem_singleton.mp h]
    simp only [joinQuoted, length_cons, length_append]
    omega
  | u :: w :: vs, v, h => by
    simp only [joinQuoted, length_cons, length_append]
    rcases mem_cons.mp h with rfl | h
    · omega
    · have := length_le_joinQuoted h
      omega

theorem mem_of_mem_joinQuoted {c : α} (hquote : c ≠ quote) (hsep : c ≠ sep) :
    ∀ {vs : List (List α)}, c ∈ joinQuoted quote sep vs → ∃ v ∈ vs, c ∈ v
  | [v], h => by
    simp only [joinQuoted, mem_cons, mem_append, not_mem_nil, or_false, hquote, false_or] at h
    exact ⟨v, mem_cons_self, h⟩
  | v :: w :: vs, h => by
    simp only [joinQuoted, mem_cons, mem_append, hquote, hsep, false_or] at h
    rcases h with h | h
    · exact ⟨v, mem_cons_self, h⟩
    · obtain ⟨u, hu, hc⟩ := mem_of_mem_joinQuoted hquote hsep h
      exact ⟨u, mem_cons_of_mem v hu, hc⟩

end Join

section Split

variable [DecidableEq α] (esc quote sep : α) (blank : α → Bool)

/-- The entries of a text, from a state of the splitter : the current entry, whether a quote is
open, and whether the next character is escaped. -/
def splitQuoted (current : List α) (quoted escaped : Bool) : List α → List (List α)
  | [] => entry blank current
  | ch :: rest =>
    if escaped then splitQuoted (current ++ [ch]) quoted false rest
    else if ch = esc ∧ quoted then splitQuoted current quoted true rest
    else if ch = quote then splitQuoted current (!quoted) false rest
    else if ch = sep ∧ !quoted then entry blank current ++ splitQuoted [] quoted false rest
    else splitQuoted (current ++ [ch]) quoted false rest

/-- The characters that the splitter keeps. -/
def pushed (quoted escaped : Bool) : List α → List α
  | [] => []
  | ch :: rest =>
    if escaped then ch :: pushed quoted false rest
    else if ch = esc ∧ quoted then pushed quoted true rest
    else if ch = quote then pushed (!quoted) false rest
    else if ch = sep ∧ !quoted then pushed quoted false rest
    else ch :: pushed quoted false rest

variable {esc quote sep blank}

theorem count_splitQuoted {c : α} (hc : blank c = false) : ∀ (text current : List α)
    (quoted escaped : Bool),
    (splitQuoted esc quote sep blank current quoted escaped text).flatten.count c =
      current.count c + (pushed esc quote sep quoted escaped text).count c
  | [], current, _, _ => by rw [splitQuoted, pushed, count_entry hc, count_nil, Nat.add_zero]
  | ch :: rest, current, quoted, escaped => by
    have ih := count_splitQuoted hc rest
    rw [splitQuoted, pushed]
    split_ifs <;>
      simp only [ih, flatten_append, count_append, count_cons, count_nil, count_entry hc] <;> omega

/-- Every kept quote costs an escape that is dropped. -/
theorem count_pushed_le (hne : quote ≠ esc) : ∀ (text : List α) (quoted escaped : Bool),
    (pushed esc quote sep quoted escaped text).count quote +
      (pushed esc quote sep quoted escaped text).count esc ≤ text.count esc + escaped.toNat
  | [], _, _ => by simp [pushed]
  | ch :: rest, quoted, escaped => by
    have ih := count_pushed_le hne rest
    have hplain := fun quoted => ih quoted false
    have hescaped := ih quoted true
    simp only [Bool.toNat_false, Bool.toNat_true, Nat.add_zero] at hplain hescaped
    have hcount : ((if (ch == quote) = true then 1 else 0) : ℕ) +
        (if (ch == esc) = true then 1 else 0) ≤ 1 := by
      by_cases hq : ch = quote
      · simp [hq, hne]
      · simp [hq]
        split <;> omega
    rw [pushed]
    split_ifs with h1 h2 h3 h4
    · have := hplain quoted
      simp only [count_cons, h1, Bool.toNat_true]
      omega
    · rw [h2.1, count_cons_self]
      omega
    · have := hplain (!quoted)
      rw [count_cons]
      omega
    · have := hplain quoted
      rw [count_cons]
      omega
    · have := hplain quoted
      have hq : (ch == quote) = false := by simp [h3]
      simp only [count_cons, hq, Bool.false_eq_true, if_false]
      omega

theorem count_esc_pushed_le : ∀ (text : List α) (quoted escaped : Bool),
    (pushed esc quote sep quoted escaped text).count esc ≤ text.count esc
  | [], _, _ => le_refl _
  | ch :: rest, quoted, escaped => by
    have ih := count_esc_pushed_le rest
    rw [pushed]
    split_ifs <;> simp only [count_cons] <;>
      [have := ih quoted false; have := ih quoted true; have := ih (!quoted) false;
        have := ih quoted false; have := ih quoted false] <;> omega

theorem splitQuoted_clean : ∀ {v : List α}, esc ∉ v → quote ∉ v → ∀ current rest : List α,
    splitQuoted esc quote sep blank current true false (v ++ rest) =
      splitQuoted esc quote sep blank (current ++ v) true false rest
  | [], _, _, current, rest => by rw [nil_append, append_nil]
  | c :: v, hesc, hquote, current, rest => by
    rw [mem_cons, not_or] at hesc hquote
    rw [cons_append, splitQuoted, if_neg (by simp), if_neg fun h => hesc.1 h.1.symm,
      if_neg fun h => hquote.1 h.symm, if_neg (by simp), splitQuoted_clean hesc.2 hquote.2]
    simp

theorem pushed_clean : ∀ {v : List α}, esc ∉ v → quote ∉ v → ∀ rest : List α,
    pushed esc quote sep true false (v ++ rest) = v ++ pushed esc quote sep true false rest
  | [], _, _, rest => rfl
  | c :: v, hesc, hquote, rest => by
    rw [mem_cons, not_or] at hesc hquote
    rw [cons_append, pushed, if_neg (by simp), if_neg fun h => hesc.1 h.1.symm,
      if_neg fun h => hquote.1 h.symm, if_neg (by simp), pushed_clean hesc.2 hquote.2,
      cons_append]

theorem splitQuoted_sep (hsep : sep ≠ quote) (hesc : sep ≠ esc) (current rest : List α) :
    splitQuoted esc quote sep blank current false false (sep :: rest) =
      entry blank current ++ splitQuoted esc quote sep blank [] false false rest := by
  rw [splitQuoted, if_neg (by simp), if_neg fun h => hesc h.1, if_neg hsep, if_pos (by simp)]

theorem pushed_sep (hsep : sep ≠ quote) (hesc : sep ≠ esc) (rest : List α) :
    pushed esc quote sep false false (sep :: rest) = pushed esc quote sep false false rest := by
  rw [pushed, if_neg (by simp), if_neg fun h => hesc h.1, if_neg hsep, if_pos (by simp)]

variable (hquote : quote ≠ esc) (hsep : sep ≠ quote)

include hquote

theorem splitQuoted_quote (current rest : List α) (quoted : Bool) :
    splitQuoted esc quote sep blank current quoted false (quote :: rest) =
      splitQuoted esc quote sep blank current (!quoted) false rest := by
  rw [splitQuoted, if_neg (by simp), if_neg fun h => hquote h.1, if_pos rfl]

theorem pushed_quote (rest : List α) (quoted : Bool) :
    pushed esc quote sep quoted false (quote :: rest) =
      pushed esc quote sep (!quoted) false rest := by
  rw [pushed, if_neg (by simp), if_neg fun h => hquote h.1, if_pos rfl]

variable (hesc : sep ≠ esc)

include hesc

/-- The first pass over a quoted list leaves the entries between their quotes. -/
theorem unescape_joinQuoted : ∀ (vs : List (List α)) (rest : List α),
    unescape esc (joinQuoted quote sep (vs.map (escape esc quote)) ++ rest) =
      joinQuoted quote sep vs ++ unescape esc rest
  | [], rest => rfl
  | [v], rest => by
    simp only [map_cons, map_nil, joinQuoted, cons_append, append_assoc, nil_append]
    rw [unescape_cons_of_ne hquote, unescape_escape_append, unescape_cons_of_ne hquote]
  | v :: w :: vs, rest => by
    have ih := unescape_joinQuoted (w :: vs) rest
    simp only [map_cons, joinQuoted, cons_append, append_assoc] at ih ⊢
    rw [unescape_cons_of_ne hquote, unescape_escape_append, unescape_cons_of_ne hquote,
      unescape_cons_of_ne hesc, ih]

theorem count_esc_joinQuoted : ∀ vs : List (List α),
    (joinQuoted quote sep vs).count esc = vs.flatten.count esc
  | [] => rfl
  | [v] => by simp [joinQuoted, hquote]
  | v :: w :: vs => by
    rw [joinQuoted, count_cons_of_ne hquote, count_append, count_cons_of_ne hquote,
      count_cons_of_ne hesc, count_esc_joinQuoted (w :: vs),
      ← count_append, ← flatten_cons]

include hsep

theorem splitQuoted_joinQuoted : ∀ {vs : List (List α)}, (∀ v ∈ vs, esc ∉ v ∧ quote ∉ v) →
      splitQuoted esc quote sep blank [] false false (joinQuoted quote sep vs) =
        vs.flatMap (entry blank)
  | [], _ => by simp [joinQuoted, splitQuoted, entry, trim]
  | [v], h => by
    obtain ⟨hv, hv'⟩ := h v mem_cons_self
    rw [joinQuoted, splitQuoted_quote hquote, Bool.not_false, splitQuoted_clean hv hv',
      splitQuoted_quote hquote, splitQuoted, nil_append, flatMap_singleton]
  | v :: w :: vs, h => by
    obtain ⟨hv, hv'⟩ := h v mem_cons_self
    rw [joinQuoted, splitQuoted_quote hquote, Bool.not_false, splitQuoted_clean hv hv',
      splitQuoted_quote hquote, Bool.not_true, splitQuoted_sep hsep hesc,
      splitQuoted_joinQuoted fun u hu => h u (mem_cons_of_mem v hu), nil_append,
      ← flatMap_cons]

/-- Without quotes in the entries, an escape inside them is lost. -/
theorem count_esc_pushed_lt : ∀ {vs : List (List α)}, (∀ v ∈ vs, quote ∉ v) → (∃ v ∈ vs, esc ∈ v) →
      (pushed esc quote sep false false (joinQuoted quote sep vs)).count esc <
        (joinQuoted quote sep vs).count esc
  | [], _, h => by simp at h
  | v :: vs, hclean, hex => by
    -- The text is `v` between quotes and a rest that is counted by induction.
    obtain ⟨tail, htail, hrest⟩ : ∃ tail, joinQuoted quote sep (v :: vs) = quote :: (v ++ tail) ∧
        ((∃ u ∈ vs, esc ∈ u) →
          (pushed esc quote sep true false tail).count esc < tail.count esc) := by
      cases vs with
      | nil => exact ⟨[quote], rfl, fun h => by simp at h⟩
      | cons w vs =>
        refine ⟨_, rfl, fun h => ?_⟩
        have ih := count_esc_pushed_lt (fun u hu => hclean u (mem_cons_of_mem v hu)) h
        rwa [pushed_quote hquote, Bool.not_true, pushed_sep hsep hesc,
          count_cons_of_ne hquote, count_cons_of_ne hesc]
    rw [htail, pushed_quote hquote, Bool.not_false, count_cons_of_ne hquote]
    by_cases hv : esc ∈ v
    · obtain ⟨a, b, rfl, ha⟩ := eq_append_cons_of_mem hv
      have hquotes := hclean _ mem_cons_self
      rw [append_assoc, pushed_clean ha fun h => hquotes (mem_append_left _ h),
        cons_append, pushed, if_neg (by simp), if_pos ⟨rfl, rfl⟩, count_append,
        count_append, count_cons_self]
      have : (pushed esc quote sep true true (b ++ tail)).count esc ≤ (b ++ tail).count esc :=
        count_esc_pushed_le (b ++ tail) true true
      omega
    · have hrest := hrest (by simpa [hv] using hex)
      rw [pushed_clean hv (hclean v mem_cons_self), count_append, count_append]
      omega

/-- A list of entries between quotes is split into them exactly when no entry has an escape or
a quote. -/
theorem splitQuoted_joinQuoted_iff (hblank : blank esc = false)
    (hblank' : blank quote = false) {vs : List (List α)} :
    splitQuoted esc quote sep blank [] false false (joinQuoted quote sep vs) =
      vs.flatMap (entry blank) ↔ ∀ v ∈ vs, esc ∉ v ∧ quote ∉ v := by
  refine ⟨fun h => ?_, splitQuoted_joinQuoted hquote hsep hesc⟩
  have hescs := congrArg (fun out => out.flatten.count esc) h
  have hquotes := congrArg (fun out => out.flatten.count quote) h
  simp only [count_splitQuoted hblank, count_splitQuoted hblank', count_flatMap_entry hblank,
    count_flatMap_entry hblank', count_nil, Nat.zero_add] at hescs hquotes
  have hbound : (pushed esc quote sep false false (joinQuoted quote sep vs)).count quote +
      (pushed esc quote sep false false (joinQuoted quote sep vs)).count esc ≤
        (joinQuoted quote sep vs).count esc + false.toNat := count_pushed_le hquote _ false false
  have htext := count_esc_joinQuoted hquote hesc vs
  rw [Bool.toNat_false, Nat.add_zero] at hbound
  have hnoquote : ∀ v ∈ vs, quote ∉ v := fun v hv hmem => by
    have := count_pos_iff.2 (mem_flatten_of_mem hv hmem)
    omega
  refine fun v hv => ⟨fun hmem => ?_, hnoquote v hv⟩
  have := count_esc_pushed_lt hquote hsep hesc hnoquote ⟨v, hv, hmem⟩
  omega

end Split

end Quoting
