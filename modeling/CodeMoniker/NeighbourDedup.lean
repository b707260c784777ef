import CodeMoniker.StableSort

/-!
# Dropping neighbours with the same tag

`dedupBy tag` keeps the first element of every run of elements with one tag. On a list that is
sorted by a key, and whose tag is a part of the key, whether a key keeps an element is decided by
what sorts before it : `countP_dedupBy_eq_one_iff` says that every key keeps exactly one element
if and only if no two keys with one tag are next to one another.
-/

namespace NeighbourDedup

open List

variable {α β κ : Type} [DecidableEq β] [LinearOrder κ]

/-- `dedup_by_key` of the standard library. -/
def dedupBy (tag : α → β) (l : List α) : List α := l.destutter fun a b => tag a ≠ tag b

/-- The elements whose tag is not the one before. -/
def keepNew (tag : α → β) : α → List α → List α
  | _, [] => []
  | a, b :: l => if tag a ≠ tag b then b :: keepNew tag b l else keepNew tag b l

variable {tag : α → β} {key : α → κ}

theorem keepNew_congr {a b : α} (h : tag a = tag b) : ∀ l, keepNew tag a l = keepNew tag b l
  | [] => rfl
  | c :: l => by simp only [keepNew, h]

/-- What is kept last has the tag of what was looked at last. -/
theorem destutter'_eq_keepNew : ∀ (a : α) (l : List α),
    l.destutter' (fun a b => tag a ≠ tag b) a = a :: keepNew tag a l
  | a, [] => rfl
  | a, b :: l => by
    by_cases h : tag a = tag b
    · have hskip : ¬tag a ≠ tag b := not_not.mpr h
      rw [destutter'_cons_neg (R := fun a b => tag a ≠ tag b) l hskip,
        destutter'_eq_keepNew a l, keepNew, if_neg hskip, keepNew_congr h]
    · rw [destutter'_cons_pos (R := fun a b => tag a ≠ tag b) l h,
        destutter'_eq_keepNew b l, keepNew, if_pos h]

theorem dedupBy_cons (a : α) (l : List α) : dedupBy tag (a :: l) = a :: keepNew tag a l :=
  destutter'_eq_keepNew a l

theorem keepNew_sublist (tag : α → β) : ∀ (a : α) (l : List α), (keepNew tag a l).Sublist l
  | _, [] => .slnil
  | a, b :: l => by
    rw [keepNew]
    split_ifs
    · exact (keepNew_sublist tag b l).cons_cons b
    · exact (keepNew_sublist tag b l).cons b

theorem countP_keepNew_eq_zero {a : α} {l : List α} {k : κ} (h : ∀ b ∈ l, key b ≠ k) :
    (keepNew tag a l).countP (key · = k) = 0 :=
  countP_eq_zero.mpr fun b hb =>
    mt of_decide_eq_true (h b ((keepNew_sublist tag a l).subset hb))

variable (hkey : ∀ {a b : α}, key a = key b → tag a = tag b)

include hkey

/-- The rest of a run of one key is dropped. -/
theorem countP_keepNew_same : ∀ {a : α} {l : List α}, (a :: l).Pairwise (key · ≤ key ·) →
      (keepNew tag a l).countP (key · = key a) = 0
  | _, [], _ => rfl
  | a, b :: l, h => by
    obtain ⟨ha, hl⟩ := pairwise_cons.mp h
    rcases (ha b mem_cons_self).eq_or_lt with heq | hlt
    · rw [keepNew, if_neg (not_not.mpr (hkey heq)), heq]
      exact countP_keepNew_same hl
    · refine countP_keepNew_eq_zero fun c hc => ?_
      rcases mem_cons.mp hc with rfl | hc
      · exact hlt.ne'
      · exact (hlt.trans_le ((pairwise_cons.mp hl).1 c hc)).ne'

/-- Two keys are next to one another in the list. -/
def Next (key : α → κ) (l : List α) (a b : α) : Prop :=
  key a < key b ∧ ∀ c ∈ l, ¬(key a < key c ∧ key c < key b)

/-- The first of a key is kept, unless the key before has its tag. -/
theorem countP_keepNew_eq_one :
    ∀ {a : α} {l : List α} {b : α}, (a :: l).Pairwise (key · ≤ key ·) → key a < key b → b ∈ l →
      (∀ c ∈ a :: l, Next key (a :: l) c b → tag c ≠ tag b) →
      (keepNew tag a l).countP (key · = key b) = 1
  | _, [], _, _, _, hb, _ => nomatch hb
  | a, c :: l, b, h, hlt, hb, hnext => by
    obtain ⟨ha, hl⟩ := pairwise_cons.mp h
    have hc := (pairwise_cons.mp hl).1
    have hle : key c ≤ key b := by
      rcases mem_cons.mp hb with rfl | hb
      · exact le_rfl
      · exact hc b hb
    rcases hle.eq_or_lt with heq | hcb
    · have hbetween : Next key (a :: c :: l) a b := by
        refine ⟨hlt, fun d hd hbetween => ?_⟩
        rcases mem_cons.mp hd with rfl | hd
        · exact lt_irrefl _ hbetween.1
        · rcases mem_cons.mp hd with rfl | hd
          · exact (heq ▸ hbetween.2).false
          · exact (hbetween.2.trans_le (heq ▸ hc d hd)).false
      have hne : tag a ≠ tag c := fun htag =>
        hnext a mem_cons_self hbetween (htag.trans (hkey heq))
      rw [keepNew, if_pos hne, countP_cons, ← heq, countP_keepNew_same hkey hl]
      simp
    · have hbl : b ∈ l := (mem_cons.mp hb).resolve_left fun heq => (heq ▸ hcb).false
      have ih := countP_keepNew_eq_one hl hcb hbl fun d hd hd' =>
        hnext d (mem_cons_of_mem a hd) ⟨hd'.1, fun e he hbetween => by
          rcases mem_cons.mp he with rfl | he
          · exact (hbetween.1.trans_le (ha d hd)).false
          · exact hd'.2 e he hbetween⟩
      rw [keepNew]
      split_ifs
      · rw [countP_cons, ih]
        simp [hcb.ne]
      · exact ih

/-- A key whose tag stands right before it is dropped. -/
theorem countP_keepNew_next :
    ∀ {a : α} {l : List α} {b c : α}, (a :: l).Pairwise (key · ≤ key ·) → c ∈ a :: l →
      Next key (a :: l) c b → tag c = tag b → (keepNew tag a l).countP (key · = key b) = 0
  | _, [], _, _, _, _, _, _ => rfl
  | a, d :: l, b, c, h, hc, hnext, htag => by
    obtain ⟨ha, hl⟩ := pairwise_cons.mp h
    have hd := (pairwise_cons.mp hl).1
    rcases lt_trichotomy (key d) (key b) with hdb | heq | hbd
    · -- The key before is not reached yet, or it is the one of `d`.
      have hrest : (keepNew tag d l).countP (key · = key b) = 0 := by
        have hnext' : Next key (d :: l) c b :=
          ⟨hnext.1, fun e he => hnext.2 e (mem_cons_of_mem a he)⟩
        rcases mem_cons.mp hc with rfl | hc
        · have hsame : key c = key d := by
            refine (ha d mem_cons_self).antisymm (not_lt.mp fun hlt => ?_)
            exact hnext.2 d (by simp) ⟨hlt, hdb⟩
          refine countP_keepNew_next hl mem_cons_self ?_ ((hkey hsame).symm.trans htag)
          exact ⟨hdb, fun e he => hsame ▸ hnext'.2 e he⟩
        · exact countP_keepNew_next hl hc hnext' htag
      rw [keepNew]
      split_ifs
      · rw [countP_cons, hrest]
        simp [hdb.ne]
      · exact hrest
    · have hca : c = a := (mem_cons.mp hc).resolve_right fun hcl => by
        rcases mem_cons.mp hcl with rfl | hcl
        · exact (heq ▸ hnext.1).false
        · exact (hnext.1.trans_le (heq ▸ hd c hcl)).false
      have htag' : tag a = tag d := (hca ▸ htag).trans (hkey heq).symm
      rw [keepNew, if_neg (not_not.mpr htag'), ← heq]
      exact countP_keepNew_same hkey hl
    · refine countP_keepNew_eq_zero fun e he => ?_
      rcases mem_cons.mp he with rfl | he
      · exact hbd.ne'
      · exact (hbd.trans_le (hd e he)).ne'

/-- Every key of a sorted list keeps exactly one element, if and only if no two keys with the
same tag are next to one another. -/
theorem countP_dedupBy_eq_one_iff {l : List α} (hl : l.Pairwise (key · ≤ key ·)) :
    (∀ b ∈ l, (dedupBy tag l).countP (key · = key b) = 1) ↔
      ∀ a ∈ l, ∀ b ∈ l, Next key l a b → tag a ≠ tag b := by
  cases l with
  | nil => simp
  | cons x l =>
    rw [dedupBy_cons]
    constructor
    · intro h a ha b hb hnext htag
      have hx : key x ≤ key a := by
        rcases mem_cons.mp ha with rfl | ha
        · exact le_rfl
        · exact (pairwise_cons.mp hl).1 a ha
      have hone := h b hb
      rw [countP_cons, countP_keepNew_next hkey hl ha hnext htag] at hone
      simp [(hx.trans_lt hnext.1).ne] at hone
    · intro h b hb
      have hle : key x ≤ key b := by
        rcases mem_cons.mp hb with rfl | hb
        · exact le_rfl
        · exact (pairwise_cons.mp hl).1 b hb
      rcases hle.eq_or_lt with heq | hlt
      · rw [countP_cons, ← heq, countP_keepNew_same hkey hl]
        simp
      · have hbl : b ∈ l := (mem_cons.mp hb).resolve_left fun heq => (heq ▸ hlt).false
        rw [countP_cons, countP_keepNew_eq_one hkey hl hlt hbl fun c hc => h c hc b hb]
        simp [hlt.ne]

end NeighbourDedup
