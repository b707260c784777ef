import CodeMoniker.Kleene
import CodeMoniker.OrdSet

/-!
# Three-valued sets

A set of elements of a universe together with what is known of the others : the elements that
pass, those that fail and those that are unknown. `ofClass u v` is the set of an assignment `v`
of open answers, and every operation on such sets is one of `Kleene` on the assignments
(`and_ofClass`, `or_ofClass`, `not_ofClass`). A set of this form partitions its universe
(`partitions_ofClass`).
-/

/-- The elements that pass, fail and are unknown. -/
structure TriSet (α : Type) [LinearOrder α] where
  pass : OrdSet α
  fail : OrdSet α
  unknown : OrdSet α

namespace TriSet

open Kleene OrdSet

variable {α : Type} [LinearOrder α] (u : OrdSet α)

def fromTruth (truth : OrdSet α) : TriSet α := ⟨truth, u \ truth, ∅⟩

def allPass : TriSet α := fromTruth u u

def allFail : TriSet α := fromTruth u ∅

def allUnknown : TriSet α := ⟨∅, ∅, u⟩

def partition (pass fail : OrdSet α) : TriSet α := ⟨pass, fail, u \ (pass ∪ fail)⟩

def and (s t : TriSet α) : TriSet α := partition u (s.pass ∩ t.pass) (s.fail ∪ t.fail)

def or (s t : TriSet α) : TriSet α := partition u (s.pass ∪ t.pass) (s.fail ∩ t.fail)

def not (s : TriSet α) : TriSet α := ⟨s.fail, s.pass, s.unknown⟩

/-- `reduce` with a connective. -/
def reduce (f : TriSet α → TriSet α → TriSet α) : List (TriSet α) → Option (TriSet α)
  | [] => none
  | s :: ss => some (ss.foldl f s)

/-! ## Classes -/

/-- Where an element is listed, if it passes or fails. -/
def classOf (s : TriSet α) (a : α) : Option Bool :=
  if a ∈ s.pass then some true else if a ∈ s.fail then some false else none

/-- Each element of the universe, and nothing else, is in one of the three sets. -/
structure Partitions (s : TriSet α) (u : OrdSet α) : Prop where
  cover : ∀ a, a ∈ u ↔ a ∈ s.pass ∨ a ∈ s.fail ∨ a ∈ s.unknown
  passFail : ∀ a ∈ s.pass, a ∉ s.fail
  passUnknown : ∀ a ∈ s.pass, a ∉ s.unknown
  failUnknown : ∀ a ∈ s.fail, a ∉ s.unknown

/-- The elements of the universe by their answers. -/
def ofClass (v : α → Option Bool) : TriSet α where
  pass := u.filter fun a => v a = some true
  fail := u.filter fun a => v a = some false
  unknown := u.filter fun a => v a = none

variable {u} {v w : α → Option Bool}

theorem partitions_ofClass : Partitions (ofClass u v) u where
  cover a := by
    simp only [ofClass, mem_filter, ← and_or_left]
    refine ⟨fun ha => ⟨ha, ?_⟩, And.left⟩
    rcases v a with _ | _ | _
    · exact Or.inr (Or.inr rfl)
    · exact Or.inr (Or.inl rfl)
    · exact Or.inl rfl
  passFail a ha hf := by
    have hpass := (mem_filter.mp ha).2
    have hfail := (mem_filter.mp hf).2
    simp [hpass] at hfail
  passUnknown a ha hn := by
    have hpass := (mem_filter.mp ha).2
    have hunknown := (mem_filter.mp hn).2
    simp [hpass] at hunknown
  failUnknown a ha hn := by
    have hfail := (mem_filter.mp ha).2
    have hunknown := (mem_filter.mp hn).2
    simp [hfail] at hunknown

theorem classOf_ofClass {a : α} (ha : a ∈ u) : (ofClass u v).classOf a = v a := by
  simp only [classOf, ofClass, mem_filter, ha, true_and]
  rcases v a with _ | _ | _ <;> simp

/-! ## Operations on answers -/

theorem fromTruth_filter (p : α → Bool) :
    fromTruth u (u.filter fun a => p a = true) = ofClass u fun a => some (p a) := by
  simp only [fromTruth, ofClass, mk.injEq]
  refine ⟨?_, ?_, ?_⟩
  · ext a
    simp
  · ext a
    simp +contextual [mem_sdiff]
  · ext a
    simp

theorem allPass_eq : allPass u = ofClass u fun _ => some true := by
  rw [allPass, ← fromTruth_filter]
  congr 1
  ext a
  simp

theorem allFail_eq : allFail u = ofClass u fun _ => some false := by
  rw [allFail, ← fromTruth_filter]
  congr 1
  ext a
  simp

theorem allUnknown_eq : allUnknown u = ofClass u fun _ => none := by
  simp only [allUnknown, ofClass, mk.injEq]
  refine ⟨?_, ?_, ?_⟩ <;>
  · ext a
    simp

/-- The third set is what the first two leave of the universe. -/
theorem partition_eq {pass fail : OrdSet α} (hpass : ∀ a, a ∈ pass ↔ a ∈ u ∧ v a = some true)
    (hfail : ∀ a, a ∈ fail ↔ a ∈ u ∧ v a = some false) : partition u pass fail = ofClass u v := by
  simp only [partition, ofClass, mk.injEq]
  refine ⟨?_, ?_, ?_⟩
  · ext a
    rw [hpass, mem_filter]
  · ext a
    rw [hfail, mem_filter]
  · ext a
    simp only [mem_sdiff, mem_union, mem_filter, hpass, hfail]
    refine and_congr_right fun ha => ?_
    rcases v a with _ | _ | _ <;> simp [ha]

theorem not_ofClass : (ofClass u v).not = ofClass u fun a => (v a).map (! ·) := by
  simp only [not, ofClass, mk.injEq]
  refine ⟨?_, ?_, ?_⟩ <;>
  · ext a
    simp only [mem_filter]
    refine and_congr_right fun _ => ?_
    rcases v a with _ | _ | _ <;> simp

theorem and_ofClass :
    and u (ofClass u v) (ofClass u w) = ofClass u fun a => fold false false [v a, w a] := by
  refine partition_eq (fun a => ?_) fun a => ?_
  · simp only [ofClass, mem_inter, mem_filter, ← and_and_left]
    refine and_congr_right fun _ => ?_
    rcases v a with _ | _ | _ <;> rcases w a with _ | _ | _ <;> simp [fold]
  · simp only [ofClass, mem_union, mem_filter, ← and_or_left]
    refine and_congr_right fun _ => ?_
    rcases v a with _ | _ | _ <;> rcases w a with _ | _ | _ <;> simp [fold]

theorem or_ofClass :
    or u (ofClass u v) (ofClass u w) = ofClass u fun a => fold true false [v a, w a] := by
  refine partition_eq (fun a => ?_) fun a => ?_
  · simp only [ofClass, mem_union, mem_filter, ← and_or_left]
    refine and_congr_right fun _ => ?_
    rcases v a with _ | _ | _ <;> rcases w a with _ | _ | _ <;> simp [fold]
  · simp only [ofClass, mem_inter, mem_filter, ← and_and_left]
    refine and_congr_right fun _ => ?_
    rcases v a with _ | _ | _ <;> rcases w a with _ | _ | _ <;> simp [fold]

section Reduce

variable {β : Type} (f : β → α → Option Bool)

/-- A connective that acts on the answers as `fold d`, over any number of sets. -/
theorem foldl_ofClass {d : Bool} {op : TriSet α → TriSet α → TriSet α}
    (hop : ∀ v w, op (ofClass u v) (ofClass u w) = ofClass u fun a => fold d false [v a, w a]) :
    ∀ (ns : List β) (v : α → Option Bool),
      (ns.map fun n => ofClass u (f n)).foldl op (ofClass u v) =
        ofClass u fun a => fold d false (v a :: ns.map (f · a))
  | [], v => by simp only [List.map_nil, List.foldl_nil, fold_singleton]
  | n :: ns, v => by
    rw [List.map_cons, List.foldl_cons, hop, foldl_ofClass hop ns]
    simp only [fold_cons_fold, List.map_cons]

theorem reduce_and_ofClass (ns : List β) :
    (reduce (and u) (ns.map fun n => ofClass u (f n))).getD (allPass u) =
      ofClass u fun a => fold false false (ns.map (f · a)) := by
  cases ns with
  | nil => exact allPass_eq
  | cons n ns => exact foldl_ofClass f (fun _ _ => and_ofClass) ns (f n)

theorem reduce_or_ofClass (ns : List β) :
    (reduce (or u) (ns.map fun n => ofClass u (f n))).getD (allFail u) =
      ofClass u fun a => fold true false (ns.map (f · a)) := by
  cases ns with
  | nil => exact allFail_eq
  | cons n ns => exact foldl_ofClass f (fun _ _ => or_ofClass) ns (f n)

end Reduce

end TriSet
