import CodeMoniker.CodeGraph

/-!
# Deduplicating references by hash

The deduper keeps the position of the first reference under a hash, and all positions under it once
there are two. Both maps give the positions of the references with a hash (`Positions`), in which an
equal reference is found under any hash that respects equality (`pushAll_eq`).
-/

namespace CodeMoniker

open List ByteCodec

inductive Namespace
  | unified
  | value
  | type
  | macros
  | lifetime
  | module
  | schema
  | custom (name : String)
  deriving DecidableEq

structure RefHints where
  receiverHint : Bytes
  aliasName : Bytes
  nameSpace : Option Namespace
  callName : Bytes
  callArity : Option ℕ
  deriving DecidableEq

structure ResolvedRef where
  source : Moniker
  target : Moniker
  kind : Bytes
  position : Option Position
  confidence : Bytes
  hints : RefHints
  deriving DecidableEq

def sameRef (includeHints : Bool) (left right : ResolvedRef) : Bool :=
  left.source = right.source && left.target = right.target && left.kind = right.kind &&
    left.position = right.position && left.confidence = right.confidence &&
    (!includeHints || left.hints = right.hints)

/-- With the hints this is equality, and without them equality of all else. -/
theorem sameRef_iff {a b : ResolvedRef} : (sameRef true a b = true ↔ a = b) ∧
    (sameRef false a b = true ↔ { a with hints := b.hints } = b) := by
  cases a
  cases b
  simp [sameRef, and_assoc]

structure ResolvedRefDeduper where
  unique : UInt64 → Option ℕ
  collisions : UInt64 → Option (List ℕ)
  includeHints : Bool

namespace ResolvedRefDeduper

def new (includeHints : Bool) : ResolvedRefDeduper := ⟨fun _ => none, fun _ => none, includeHints⟩

/-- The search of the candidates. There is no answer where a position is out of range. -/
def anySame (includeHints : Bool) (refs : List ResolvedRef) (reference : ResolvedRef) :
    List ℕ → Option Bool
  | [] => some false
  | index :: candidates => do
    let stored ← refs[index]?
    if sameRef includeHints stored reference then some true
    else anySame includeHints refs reference candidates

def pushHashed (d : ResolvedRefDeduper) (refs : List ResolvedRef) (reference : ResolvedRef)
    (hash : UInt64) : Option (ResolvedRefDeduper × List ResolvedRef) := do
  let candidates := ((d.collisions hash).or ((d.unique hash).map ([·]))).getD []
  let found ← anySame d.includeHints refs reference candidates
  if found then return (d, refs)
  let index := refs.length
  match d.unique hash with
  | none =>
    return ({ d with unique := Function.update d.unique hash (some index) }, refs ++ [reference])
  | some existing =>
    let positions := (d.collisions hash).getD [existing] ++ [index]
    return ({ d with collisions := Function.update d.collisions hash (some positions) },
      refs ++ [reference])

def push (hash : ResolvedRef → UInt64) (s : ResolvedRefDeduper × List ResolvedRef)
    (reference : ResolvedRef) : Option (ResolvedRefDeduper × List ResolvedRef) :=
  s.1.pushHashed s.2 reference (hash reference)

def pushAll (hash : ResolvedRef → UInt64) (includeHints : Bool) (seq : List ResolvedRef) :
    Option (ResolvedRefDeduper × List ResolvedRef) :=
  seq.foldlM (push hash) (new includeHints, [])

/-- A sequence without the references that equal an earlier one, those before it in `earlier`. -/
def firstOnly (includeHints : Bool) : List ResolvedRef → List ResolvedRef → List ResolvedRef
  | _, [] => []
  | earlier, reference :: seq =>
    if earlier.any (sameRef includeHints · reference) then
      firstOnly includeHints (reference :: earlier) seq
    else reference :: firstOnly includeHints (reference :: earlier) seq

/-! ## The two maps -/

section

variable {hash : ResolvedRef → UInt64} {d : ResolvedRefDeduper} {refs : List ResolvedRef}
  {r : ResolvedRef} {includeHints : Bool}

/-- The references with a hash, with their positions. -/
def bucket (hash : ResolvedRef → UInt64) (refs : List ResolvedRef) (h : UInt64) :
    List (ResolvedRef × ℕ) :=
  refs.zipIdx.filter (hash ·.1 = h)

structure Positions (hash : ResolvedRef → UInt64) (d : ResolvedRefDeduper)
    (refs : List ResolvedRef) : Prop where
  unique : ∀ h, d.unique h = ((bucket hash refs h).map (·.2)).head?
  collisions : ∀ h, d.collisions h =
    if 2 ≤ (bucket hash refs h).length then some ((bucket hash refs h).map (·.2)) else none

theorem bucket_concat (h : UInt64) : bucket hash (refs ++ [r]) h =
    bucket hash refs h ++ if hash r = h then [(r, refs.length)] else [] := by
  unfold bucket
  rw [zipIdx_append, filter_append, zipIdx_singleton, filter_singleton, Nat.zero_add]
  split_ifs with hr <;> simp [hr]

theorem Positions.candidates (hd : Positions hash d refs) (h : UInt64) :
    ((d.collisions h).or ((d.unique h).map ([·]))).getD [] = (bucket hash refs h).map (·.2) := by
  rw [hd.collisions, hd.unique]
  cases bucket hash refs h with
  | nil => rfl
  | cons e es =>
    cases es with
    | nil => rfl
    | cons e' es => rw [if_pos (by simp), Option.some_or, Option.getD_some]

theorem anySame_map : ∀ {l : List (ResolvedRef × ℕ)}, (∀ e ∈ l, refs[e.2]? = some e.1) →
    anySame includeHints refs r (l.map (·.2)) = some (l.any (sameRef includeHints ·.1 r))
  | [], _ => rfl
  | e :: l, hl => by
    obtain ⟨he, hl⟩ := forall_mem_cons.mp hl
    rw [map_cons, anySame, he, Option.bind_eq_bind, Option.bind_some, any_cons, anySame_map hl]
    cases sameRef includeHints e.1 r <;> rfl

/-- An equal reference has the same hash, so it is in the bucket that is searched. -/
theorem anySame_bucket (hhash : ∀ a b, sameRef includeHints a b = true → hash a = hash b) :
    anySame includeHints refs r ((bucket hash refs (hash r)).map (·.2)) =
      some (refs.any (sameRef includeHints · r)) := by
  have hl : ∀ e ∈ bucket hash refs (hash r), refs[e.2]? = some e.1 := fun e he =>
    mem_zipIdx_iff_getElem?.mp (mem_filter.mp he).1
  rw [anySame_map hl, bucket, any_filter]
  congr 1
  conv_rhs => rw [← zipIdx_map_fst 0 refs, any_map]
  congr 1
  funext e
  by_cases hsame : sameRef includeHints e.1 r = true
  · simp [hhash _ _ hsame]
  · simp [hsame]

/-- Both maps are right again once the new position is under its hash. -/
theorem Positions.concat {d' : ResolvedRefDeduper} (hd : Positions hash d refs)
    (hother : ∀ h, h ≠ hash r → d'.unique h = d.unique h ∧ d'.collisions h = d.collisions h)
    (hunique : d'.unique (hash r) = ((bucket hash refs (hash r)).map (·.2) ++ [refs.length]).head?)
    (hcollisions : d'.collisions (hash r) = if bucket hash refs (hash r) = [] then none
      else some ((bucket hash refs (hash r)).map (·.2) ++ [refs.length])) :
    Positions hash d' (refs ++ [r]) := by
  refine ⟨fun h => ?_, fun h => ?_⟩
  · by_cases hne : h = hash r
    · rw [hne, hunique, bucket_concat, if_pos rfl, map_append]
      rfl
    · rw [(hother h hne).1, hd.unique, bucket_concat, if_neg (Ne.symm hne), append_nil]
  · by_cases hne : h = hash r
    · rw [hne, hcollisions, bucket_concat, if_pos rfl, map_append]
      cases bucket hash refs (hash r) <;> simp
    · rw [(hother h hne).2, hd.collisions, bucket_concat, if_neg (Ne.symm hne), append_nil]

theorem Positions.pushHashed (hd : Positions hash d refs)
    (hhash : ∀ a b, sameRef d.includeHints a b = true → hash a = hash b) :
    ∃ d', d.pushHashed refs r (hash r) = some (d',
        if refs.any (sameRef d.includeHints · r) then refs else refs ++ [r]) ∧
      d'.includeHints = d.includeHints ∧
      Positions hash d' (if refs.any (sameRef d.includeHints · r) then refs else refs ++ [r]) := by
  rw [ResolvedRefDeduper.pushHashed, hd.candidates, anySame_bucket hhash, Option.bind_eq_bind,
    Option.bind_some]
  cases refs.any (sameRef d.includeHints · r) with
  | true => exact ⟨d, rfl, rfl, hd⟩
  | false =>
    have hunique := hd.unique (hash r)
    have hcollisions := hd.collisions (hash r)
    cases hbucket : bucket hash refs (hash r) with
    | nil =>
      rw [hbucket] at hunique hcollisions
      simp only [hunique, map_nil, head?_nil]
      refine ⟨_, rfl, rfl, hd.concat (fun h hne => ⟨Function.update_of_ne hne .., rfl⟩) ?_ ?_⟩
      · rw [hbucket]
        exact Function.update_self ..
      · rw [hbucket]
        exact hcollisions
    | cons e es =>
      rw [hbucket] at hunique hcollisions
      simp only [hunique, map_cons, head?_cons]
      refine ⟨_, rfl, rfl, hd.concat (fun h hne => ⟨rfl, Function.update_of_ne hne ..⟩) ?_ ?_⟩
      · rw [hbucket]
        exact hunique
      · rw [hbucket, if_neg (cons_ne_nil e es)]
        dsimp only
        rw [Function.update_self, hcollisions]
        cases es <;> simp

theorem sameRef_trans {a b c : ResolvedRef} (hab : sameRef includeHints a b = true)
    (hbc : sameRef includeHints b c = true) : sameRef includeHints a c = true := by
  simp only [sameRef, Bool.and_eq_true, Bool.or_eq_true, decide_eq_true_iff] at hab hbc ⊢
  obtain ⟨⟨⟨⟨⟨h1, h2⟩, h3⟩, h4⟩, h5⟩, h6⟩ := hab
  rw [h1, h2, h3, h4, h5]
  exact ⟨hbc.1, h6.elim .inl fun h => h ▸ hbc.2⟩

/-- A reference equals a kept one exactly if it equals an earlier one. -/
theorem pushAll_from (hhash : ∀ a b, sameRef includeHints a b = true → hash a = hash b)
    {seq earlier : List ResolvedRef} (hd : Positions hash d refs)
    (hpolicy : d.includeHints = includeHints) (hearlier : ∀ r,
      refs.any (sameRef includeHints · r) = earlier.any (sameRef includeHints · r)) :
    (seq.foldlM (push hash) (d, refs)).map (·.2) =
      some (refs ++ firstOnly includeHints earlier seq) := by
  induction seq generalizing refs earlier d with
  | nil => simp [firstOnly]
  | cons r seq ih =>
    subst hpolicy
    obtain ⟨d', hpush, hpolicy', hd'⟩ := hd.pushHashed (r := r) hhash
    rw [foldlM_cons, push, hpush, Option.bind_eq_bind, Option.bind_some, firstOnly, ← hearlier r]
    split_ifs with hsame
    · rw [if_pos hsame] at hd'
      refine ih hd' hpolicy' fun x => ?_
      rw [any_cons, ← hearlier x]
      cases hrx : sameRef d.includeHints r x with
      | false => rfl
      | true =>
        obtain ⟨k, hk, hkr⟩ := any_eq_true.mp hsame
        exact any_eq_true.mpr ⟨k, hk, sameRef_trans hkr hrx⟩
    · rw [if_neg hsame] at hd'
      have hkept : ∀ x, (refs ++ [r]).any (sameRef d.includeHints · x) =
          (r :: earlier).any (sameRef d.includeHints · x) := fun x => by
        rw [any_append, hearlier x, any_cons, any_nil, any_cons, Bool.or_false, Bool.or_comm]
      rw [ih hd' hpolicy' hkept, append_assoc]
      rfl

end

end ResolvedRefDeduper

open ResolvedRefDeduper in
/-- Under any hash that respects equality, the list is the sequence of the references without those
that equal an earlier one. -/
theorem pushAll_eq {hash : ResolvedRef → UInt64} {includeHints : Bool}
    (hhash : ∀ a b, sameRef includeHints a b = true → hash a = hash b) (seq : List ResolvedRef) :
    (pushAll hash includeHints seq).map (·.2) = some (firstOnly includeHints [] seq) :=
  have hnew : Positions hash (new includeHints) [] := ⟨fun _ => rfl, fun _ => rfl⟩
  pushAll_from hhash hnew rfl fun _ => rfl

theorem admitted_caller : AdmittedProject [97, 112, 112] := ⟨by decide, by decide, by decide⟩

def callerModule : Moniker :=
  Moniker.ofParts [97, 112, 112] [] admitted_caller (by simp)

def refOf (kind : List UInt8) : ResolvedRef :=
  ⟨callerModule, callerModule, kind, none, [], ⟨[], [], none, [], none⟩⟩

/-- All references under one hash. -/
theorem pushAll_collisions :
    (ResolvedRefDeduper.pushAll (fun _ => 7) true [refOf [1], refOf [2], refOf [1]]).map (·.2) =
      some (ResolvedRefDeduper.firstOnly true [] [refOf [1], refOf [2], refOf [1]]) :=
  pushAll_eq (fun _ _ _ => rfl) _

end CodeMoniker
