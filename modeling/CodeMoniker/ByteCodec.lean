import Mathlib

/-!
# Reading and writing bytes

Little-endian words (`toLE`, `ofLE`), bounds-checked access to a buffer, and readers
over a cursor.

A computation that stops without a value says why (`Stop`) : it reports an error of its
own, or it panics, on an index or a slice out of bounds or at a place its author holds
to be unreachable. A guard `refuse c e` reports `e` when `c` holds.

`At buf off bs` says that `bs` is what the buffer holds from `off` on. Reading a word or
a slice is characterised through it in both directions (`readLE_eq_ok_iff`,
`slice_eq_ok_iff`). For readers over a cursor, `Reads p bs a` says that `p` consumes
exactly `bs` and returns `a`; it composes along `>>=` (`Reads.bind`) and along a counted
loop (`Reads.times_succ`). `Yields p P` says that every value `p` returns satisfies `P`.
-/

namespace ByteCodec

open List
open Except (ok.inj)

abbrev Bytes := List UInt8

/-! ## Stopping without a value -/

/-- Why a computation has no value. -/
inductive Stop (ε : Type) where
  /-- It reported an error. -/
  | error (e : ε)
  /-- It panicked. -/
  | panic
  deriving DecidableEq, Repr

section Control

variable {σ ε α β : Type} {x : Except σ α} {f : α → Except σ β}

theorem bind_eq_ok {b : β} : (x >>= f) = .ok b ↔ ∃ a, x = .ok a ∧ f a = .ok b := by
  cases x with
  | error e => simp [bind, Except.bind]
  | ok a => simp [bind, Except.bind]

theorem bind_eq_error {e : σ} :
    (x >>= f) = .error e ↔ x = .error e ∨ ∃ a, x = .ok a ∧ f a = .error e := by
  cases x with
  | error e => simp [bind, Except.bind]
  | ok a => simp [bind, Except.bind]

@[simp] theorem ok_bind (a : α) (f : α → Except σ β) : ((Except.ok a : Except σ α) >>= f) = f a :=
  rfl

@[simp] theorem pure_eq_ok (a : α) : (pure a : Except σ α) = .ok a := rfl

/-- Report `e` when `c` holds. -/
def refuse (c : Prop) [Decidable c] (e : ε) : Except (Stop ε) Unit :=
  if c then .error (.error e) else .ok ()

@[simp] theorem refuse_eq_ok {c : Prop} [Decidable c] {e : ε} {u : Unit} :
    refuse c e = .ok u ↔ ¬c := by
  unfold refuse
  split_ifs with h <;> simp [h]

theorem refuse_eq_error {c : Prop} [Decidable c] {e : ε} {s : Stop ε} :
    refuse c e = .error s ↔ c ∧ s = .error e := by
  unfold refuse
  split_ifs with h <;> simp [h, eq_comm]

theorem refuse_of_not {c : Prop} [Decidable c] (e : ε) (h : ¬c) : refuse c e = .ok () := by
  simp [refuse, h]

/-- The computation has a value. -/
def Succeeds (x : Except σ α) : Prop := ∃ a, x = .ok a

theorem succeeds_pure (a : α) : Succeeds (pure a : Except σ α) := ⟨a, rfl⟩

theorem succeeds_refuse {c : Prop} [Decidable c] {e : ε} (h : ¬c) : Succeeds (refuse c e) :=
  ⟨(), refuse_of_not e h⟩

theorem Succeeds.bind (hx : Succeeds x) (hf : ∀ a, Succeeds (f a)) : Succeeds (x >>= f) := by
  obtain ⟨a, rfl⟩ := hx
  exact hf a

/-- Wrap a reported error. -/
def Stop.mapError {ε' : Type} (f : ε → ε') (x : Except (Stop ε) α) : Except (Stop ε') α :=
  match x with
  | .ok a => .ok a
  | .error (.error e) => .error (.error (f e))
  | .error .panic => .error .panic

theorem mapError_eq_ok {τ : Type} {f : σ → τ} {x : Except σ α} {a : α} :
    x.mapError f = .ok a ↔ x = .ok a := by
  cases x with
  | error e => simp [Except.mapError]
  | ok b => simp [Except.mapError]

theorem Stop.mapError_eq_ok {ε' : Type} {f : ε → ε'} {x : Except (Stop ε) α} {a : α} :
    Stop.mapError f x = .ok a ↔ x = .ok a := by
  cases x with
  | error e => cases e <;> simp [Stop.mapError]
  | ok b => simp [Stop.mapError]

/-- The computation does not panic. -/
def NoPanic (x : Except (Stop ε) α) : Prop := x ≠ .error .panic

theorem noPanic_ok (a : α) : NoPanic (.ok a : Except (Stop ε) α) := by simp [NoPanic]

theorem noPanic_error (e : ε) : NoPanic (.error (.error e) : Except (Stop ε) α) := by simp [NoPanic]

theorem noPanic_refuse (c : Prop) [Decidable c] (e : ε) : NoPanic (refuse c e) := by
  unfold refuse
  split_ifs
  · exact noPanic_error e
  · exact noPanic_ok ()

theorem NoPanic.bind {x : Except (Stop ε) α} {f : α → Except (Stop ε) β} (hx : NoPanic x)
    (hf : ∀ a, x = .ok a → NoPanic (f a)) : NoPanic (x >>= f) := by
  intro h
  rcases bind_eq_error.mp h with h | ⟨a, ha, h⟩
  · exact hx h
  · exact hf a ha h

/-- A guard passes on its negation. -/
theorem NoPanic.refuse_bind {c : Prop} [Decidable c] {e : ε} {f : Unit → Except (Stop ε) β}
    (hf : ¬c → NoPanic (f ())) : NoPanic (refuse c e >>= f) :=
  (noPanic_refuse c e).bind fun _ h => hf (refuse_eq_ok.mp h)

end Control

/-! ## Little-endian words -/

/-- The `w` low bytes of `n`, the least significant first. -/
def toLE : ℕ → ℕ → Bytes
  | 0, _ => []
  | w + 1, n => UInt8.ofNat n :: toLE w (n / 256)

def ofLE : Bytes → ℕ
  | [] => 0
  | b :: bs => b.toNat + 256 * ofLE bs

@[simp] theorem length_toLE : ∀ w n, (toLE w n).length = w
  | 0, _ => rfl
  | w + 1, n => by simp [toLE, length_toLE w]

theorem ofLE_lt : ∀ bs : Bytes, ofLE bs < 256 ^ bs.length
  | [] => by simp [ofLE]
  | b :: bs => by
    have h := ofLE_lt bs
    have hb : b.toNat < 256 := b.toNat_lt
    rw [ofLE, length_cons, pow_succ]
    omega

theorem ofLE_toLE : ∀ w n, n < 256 ^ w → ofLE (toLE w n) = n
  | 0, n, h => by
    have : n = 0 := by simpa using h
    simp [toLE, ofLE, this]
  | w + 1, n, h => by
    have hdiv : n / 256 < 256 ^ w := by
      rw [pow_succ] at h
      exact Nat.div_lt_of_lt_mul (by rwa [mul_comm])
    rw [toLE, ofLE, ofLE_toLE w _ hdiv, UInt8.toNat_ofNat']
    omega

theorem toLE_ofLE : ∀ bs : Bytes, toLE bs.length (ofLE bs) = bs
  | [] => rfl
  | b :: bs => by
    have hb : b.toNat < 256 := b.toNat_lt
    have h1 : UInt8.ofNat (b.toNat + 256 * ofLE bs) = b := by
      apply UInt8.toNat_inj.mp
      rw [UInt8.toNat_ofNat']
      omega
    have h2 : (b.toNat + 256 * ofLE bs) / 256 = ofLE bs := by omega
    rw [length_cons, ofLE, toLE, h1, h2, toLE_ofLE bs]

theorem toLE_inj {w m n : ℕ} (hm : m < 256 ^ w) (hn : n < 256 ^ w) (h : toLE w m = toLE w n) :
    m = n := by
  rw [← ofLE_toLE w m hm, h, ofLE_toLE w n hn]

/-! ## A place in a buffer -/

/-- The buffer holds `bs` from `off` to its end. -/
def At (buf : Bytes) (off : ℕ) (bs : Bytes) : Prop := off ≤ buf.length ∧ buf.drop off = bs

theorem At.zero (buf : Bytes) : At buf 0 buf := ⟨Nat.zero_le _, rfl⟩

variable {buf bs : Bytes} {off : ℕ}

theorem At.length (h : At buf off bs) : off + bs.length = buf.length := by
  obtain ⟨hle, rfl⟩ := h
  rw [length_drop]
  omega

theorem At.advance {buf a bs : Bytes} {off : ℕ} (h : At buf off (a ++ bs)) :
    At buf (off + a.length) bs := by
  have hlen := h.length
  refine ⟨by simp at hlen; omega, ?_⟩
  rw [← drop_drop, h.2, drop_left]

theorem At.tail {buf bs : Bytes} {off : ℕ} {b : UInt8} (h : At buf off (b :: bs)) :
    At buf (off + 1) bs := @At.advance buf [b] bs off h

theorem At.getElem? {buf rest : Bytes} {i : ℕ} (h : At buf i rest) : buf[i]? = rest.head? := by
  rw [← head?_drop, h.2]

theorem At.lt {b : UInt8} (h : At buf off (b :: bs)) : off < buf.length := by
  have hlen := h.length
  rw [length_cons] at hlen
  omega

theorem At.getElem {b : UInt8} (h : At buf off (b :: bs))
    (hlt : off < buf.length) : buf[off] = b := by
  have hb := h.getElem?
  rwa [getElem?_eq_getElem hlt, head?_cons, Option.some.injEq] at hb

section Access

variable {ε : Type}

/-- `buf[i]`. -/
def index (buf : Bytes) (i : ℕ) : Except (Stop ε) UInt8 :=
  match buf[i]? with
  | some b => .ok b
  | none => .error .panic

/-- `&buf[a..b]`. -/
def slice (buf : Bytes) (a b : ℕ) : Except (Stop ε) Bytes :=
  if a ≤ b ∧ b ≤ buf.length then .ok ((buf.take b).drop a) else .error .panic

/-- The word whose bytes are `buf[off]`, ..., `buf[off + w - 1]`, each indexed. -/
def readLE (w : ℕ) (buf : Bytes) (off : ℕ) : Except (Stop ε) ℕ :=
  if off + w ≤ buf.length then .ok (ofLE ((buf.drop off).take w)) else .error .panic

theorem index_at {b : UInt8} (h : At buf off (b :: bs)) :
    index buf off = (.ok b : Except (Stop ε) UInt8) := by
  simp [index, h.getElem?]

theorem readLE_at {off w n : ℕ} (h : At buf off (toLE w n ++ bs))
    (hn : n < 256 ^ w) : readLE w buf off = (.ok n : Except (Stop ε) ℕ) := by
  have hlen := h.length
  rw [length_append, length_toLE] at hlen
  rw [readLE, if_pos (by omega), h.2, take_left' (length_toLE w n), ofLE_toLE w n hn]

theorem readLE_lt {buf : Bytes} {off w n : ℕ}
    (h : readLE w buf off = (.ok n : Except (Stop ε) ℕ)) : n < 256 ^ w := by
  unfold readLE at h
  split_ifs at h with hb
  obtain rfl := ok.inj h
  have hlen : ((buf.drop off).take w).length = w := by
    simp only [length_take, length_drop]
    omega
  simpa only [hlen] using ofLE_lt ((buf.drop off).take w)

theorem readLE_eq_ok_iff {off w n : ℕ} (h : At buf off bs) :
    readLE w buf off = (.ok n : Except (Stop ε) ℕ) ↔
      n < 256 ^ w ∧ ∃ rest, bs = toLE w n ++ rest := by
  constructor
  · intro hr
    unfold readLE at hr
    split_ifs at hr with hle
    have hlen := h.length
    have hw : (bs.take w).length = w := by
      rw [length_take]
      omega
    obtain rfl : ofLE (bs.take w) = n := by simpa [h.2] using hr
    refine ⟨by simpa [hw] using ofLE_lt (bs.take w), bs.drop w, ?_⟩
    have := toLE_ofLE (bs.take w)
    rw [hw] at this
    rw [this, take_append_drop]
  · rintro ⟨hn, rest, rfl⟩
    exact readLE_at h hn

theorem slice_at {buf bs rest : Bytes} {off : ℕ} (h : At buf off (bs ++ rest)) :
    slice buf off (off + bs.length) = (.ok bs : Except (Stop ε) Bytes) := by
  have hlen := h.length
  rw [length_append] at hlen
  rw [slice, if_pos (by omega), drop_take, h.2]
  simp

theorem slice_eq_ok_iff {buf bs s : Bytes} {off n : ℕ} (h : At buf off bs) :
    slice buf off (off + n) = (.ok s : Except (Stop ε) Bytes) ↔
      s.length = n ∧ ∃ rest, bs = s ++ rest := by
  constructor
  · intro hs
    unfold slice at hs
    split_ifs at hs with hle
    have hlen := h.length
    obtain rfl : bs.take n = s := by simpa [drop_take, h.2] using hs
    refine ⟨by rw [length_take]; omega, bs.drop n, ?_⟩
    rw [take_append_drop]
  · rintro ⟨rfl, rest, rfl⟩
    exact slice_at h

end Access

/-! ## Scanning -/

/-- `while i < buf.len() && p(buf[i]) { i += 1 }`. -/
def scanWhile (p : UInt8 → Bool) (buf : Bytes) (i : ℕ) : ℕ :=
  if h : i < buf.length then
    if p buf[i] then scanWhile p buf (i + 1) else i
  else i
termination_by buf.length - i

theorem le_scanWhile {p : UInt8 → Bool} {buf : Bytes} {i : ℕ} : i ≤ scanWhile p buf i := by
  fun_induction scanWhile p buf i <;> omega

theorem scanWhile_at {p : UInt8 → Bool} {buf : Bytes} : ∀ {rest : Bytes} {i : ℕ},
    At buf i rest → scanWhile p buf i = i + (rest.takeWhile p).length
  | [], i, h => by
    have := h.length
    rw [scanWhile, dif_neg (by simp at this; omega)]
    simp
  | b :: rest, i, h => by
    rw [scanWhile, dif_pos h.lt, h.getElem h.lt]
    by_cases hp : p b
    · rw [if_pos hp, scanWhile_at h.tail, takeWhile_cons_of_pos hp, length_cons]
      omega
    · rw [if_neg hp, takeWhile_cons_of_neg hp]
      rfl

/-! ## Readers over a cursor -/

structure Cursor where
  buf : Bytes
  off : ℕ

/-- A reader takes the cursor and returns a value with the advanced cursor. -/
abbrev Reader (ε α : Type) := StateT Cursor (Except (Stop ε)) α

namespace Reader

variable {ε α β : Type}

/-- Report `e` unless `n` more bytes are there. -/
def need (n : ℕ) (e : ε) : Reader ε Unit := fun cur =>
  if cur.off + n > cur.buf.length then .error (.error e) else .ok ((), cur)

def take (n : ℕ) (e : ε) : Reader ε Bytes := do
  need n e
  fun cur => do
    let s ← slice cur.buf cur.off (cur.off + n)
    return (s, { cur with off := cur.off + n })

/-- A little-endian word of `w` bytes. -/
def word (w : ℕ) (e : ε) : Reader ε ℕ := do
  need w e
  fun cur => do
    let v ← readLE w cur.buf cur.off
    return (v, { cur with off := cur.off + w })

def reject (c : Prop) [Decidable c] (e : ε) : Reader ε Unit := fun cur => do
  refuse c e
  return ((), cur)

def lift (x : Except (Stop ε) α) : Reader ε α := fun cur => do
  let a ← x
  return (a, cur)

/-- `n` values, in order. -/
def times : ℕ → Reader ε α → Reader ε (List α)
  | 0, _ => pure []
  | n + 1, p => do
    let a ← p
    let as ← times n p
    return a :: as

end Reader

open Reader

section Reads

variable {ε α β : Type}

/-- `p` consumes exactly `bs` and returns `a`, whatever stands before and after. -/
def Reads (p : Reader ε α) (bs : Bytes) (a : α) : Prop :=
  ∀ buf off rest, At buf off (bs ++ rest) → p ⟨buf, off⟩ = .ok (a, ⟨buf, off + bs.length⟩)

theorem Reads.pure (a : α) : Reads (pure a : Reader ε α) [] a := fun _ _ _ _ => rfl

variable {p : Reader ε α} {f : α → Reader ε β}

theorem Reads.bind {bs cs : Bytes} {a : α} {b : β}
    (hp : Reads p bs a) (hf : Reads (f a) cs b) : Reads (p >>= f) (bs ++ cs) b := by
  intro buf off rest h
  rw [append_assoc] at h
  have h1 : p ⟨buf, off⟩ = .ok (a, ⟨buf, off + bs.length⟩) := hp buf off _ h
  have h2 := hf buf _ rest h.advance
  rw [length_append, ← Nat.add_assoc, ← h2]
  simp only [Bind.bind, StateT.bind, Except.bind, h1]

/-- A step that consumes nothing. -/
theorem Reads.bind_nil {cs : Bytes} {a : α} {b : β}
    (hp : Reads p [] a) (hf : Reads (f a) cs b) : Reads (p >>= f) cs b := by
  simpa using hp.bind hf

/-- A step after which nothing is consumed. -/
theorem Reads.bind_last {bs : Bytes} {a : α} {b : β}
    (hp : Reads p bs a) (hf : Reads (f a) [] b) : Reads (p >>= f) bs b := by
  simpa using hp.bind hf

theorem Reads.map {f : α → β} {bs : Bytes} {a : α} (hp : Reads p bs a) :
    Reads (p >>= fun x => Pure.pure (f x)) bs (f a) :=
  hp.bind_last (Reads.pure (f a))

theorem reads_need (n : ℕ) (e : ε) {buf bs : Bytes} {off : ℕ} (h : At buf off bs)
    (hn : n ≤ bs.length) : need n e ⟨buf, off⟩ = .ok ((), ⟨buf, off⟩) := by
  have hlen := h.length
  rw [need, if_neg]
  simp only
  omega

theorem reads_take (bs : Bytes) (e : ε) : Reads (take bs.length e) bs bs := by
  intro buf off rest h
  have h1 := reads_need bs.length e h (by simp)
  simp only [Reader.take, Bind.bind, StateT.bind, Except.bind, h1, slice_at h]
  rfl

theorem reads_word {w n : ℕ} (hn : n < 256 ^ w) (e : ε) : Reads (word w e) (toLE w n) n := by
  intro buf off rest h
  have h1 := reads_need w e h (by simp)
  simp only [word, Bind.bind, StateT.bind, Except.bind, h1, readLE_at h hn, length_toLE]
  rfl

theorem reads_reject {c : Prop} [Decidable c] (e : ε) (h : ¬c) : Reads (reject c e) [] () := by
  intro buf off rest _
  simp [reject, refuse_of_not e h]

variable {x : Except (Stop ε) α}

theorem reads_lift {a : α} (h : x = .ok a) : Reads (lift x) [] a := by
  intro buf off rest _
  simp [lift, h]

theorem Reads.times_zero (p : Reader ε α) : Reads (times 0 p) [] [] := Reads.pure []

/-- One round of a counted loop. -/
theorem Reads.times_succ {n : ℕ} {bs cs : Bytes} {a : α} {as : List α}
    (hp : Reads p bs a) (hrest : Reads (times n p) cs as) :
    Reads (times (n + 1) p) (bs ++ cs) (a :: as) :=
  hp.bind hrest.map

/-- Every value `p` returns satisfies `P`. -/
def Yields (p : Reader ε α) (P : α → Prop) : Prop :=
  ∀ cur a cur', p cur = .ok (a, cur') → P a

theorem Yields.pure {a : α} {P : α → Prop} (h : P a) : Yields (pure a : Reader ε α) P := by
  intro cur b cur' hb
  obtain ⟨rfl, -⟩ := Prod.mk.inj (ok.inj hb)
  exact h

variable {P : α → Prop}

theorem Yields.bind {Q : β → Prop}
    (hp : Yields p P) (hf : ∀ a, P a → Yields (f a) Q) : Yields (p >>= f) Q := by
  intro cur b cur' hb
  simp only [Bind.bind, StateT.bind] at hb
  obtain ⟨⟨a, mid⟩, ha, hb⟩ := bind_eq_ok.mp hb
  exact hf a (hp _ _ _ ha) _ _ _ hb

theorem Reader.bind_eq_ok {cur cur' : Cursor} {b : β} :
    (p >>= f) cur = .ok (b, cur') ↔ ∃ a mid, p cur = .ok (a, mid) ∧ f a mid = .ok (b, cur') := by
  simp only [Bind.bind, StateT.bind]
  constructor
  · intro h
    obtain ⟨⟨a, mid⟩, ha, hb⟩ := ByteCodec.bind_eq_ok.mp h
    exact ⟨a, mid, ha, hb⟩
  · rintro ⟨a, mid, ha, hb⟩
    exact ByteCodec.bind_eq_ok.mpr ⟨(a, mid), ha, hb⟩

theorem Yields.trivial (p : Reader ε α) : Yields p fun _ => True := fun _ _ _ _ => True.intro

theorem yields_reject (c : Prop) [Decidable c] (e : ε) : Yields (reject c e) fun _ => ¬c := by
  intro cur a cur' h
  obtain ⟨u, hu, -⟩ := bind_eq_ok.mp h
  exact refuse_eq_ok.mp hu

theorem yields_word (w : ℕ) (e : ε) : Yields (word w e) (· < 256 ^ w) := by
  intro cur v cur' h
  obtain ⟨⟨u, mid⟩, -, h⟩ := bind_eq_ok.mp h
  obtain ⟨v', hv, h⟩ := bind_eq_ok.mp h
  obtain ⟨rfl, -⟩ := Prod.mk.inj (ok.inj h)
  exact readLE_lt hv

theorem yields_take (n : ℕ) (e : ε) : Yields (take n e) (·.length = n) := by
  intro cur bs cur' h
  obtain ⟨⟨u, mid⟩, hneed, h⟩ := bind_eq_ok.mp h
  obtain ⟨s, hs, h⟩ := bind_eq_ok.mp h
  obtain ⟨rfl, -⟩ := Prod.mk.inj (ok.inj h)
  unfold slice at hs
  split_ifs at hs with hle
  obtain rfl := ok.inj hs
  rw [length_drop, length_take]
  omega

theorem yields_lift {P : α → Prop} (h : ∀ a, x = .ok a → P a) : Yields (lift x) P := by
  intro cur a cur' ha
  obtain ⟨a', ha', heq⟩ := bind_eq_ok.mp ha
  obtain ⟨rfl, -⟩ := Prod.mk.inj (ok.inj heq)
  exact h _ ha'

theorem Yields.times (h : Yields p P) :
    ∀ n, Yields (times n p) fun as => as.length = n ∧ ∀ a ∈ as, P a
  | 0 => Yields.pure (by simp)
  | n + 1 => h.bind fun a ha => (Yields.times h n).bind fun as has =>
      Yields.pure (by simpa [has.1] using ⟨ha, has.2⟩)

/-! ## Where a reader stops -/

/-- The little-endian word at an offset. -/
def wordAt (w : ℕ) (buf : Bytes) (off : ℕ) : ℕ := ofLE ((buf.drop off).take w)

/-- The end of a field that starts with a word for its length. -/
def fieldEnd (w : ℕ) (buf : Bytes) (off : ℕ) : ℕ := off + w + wordAt w buf off

variable {buf : Bytes} {off : ℕ} {cur cur' : Cursor}

theorem readLE_eq_ok {w v : ℕ} (h : readLE w buf off = (.ok v : Except (Stop ε) ℕ)) :
    v = wordAt w buf off := by
  unfold readLE at h
  split_ifs at h
  exact (ok.inj h).symm

theorem need_eq_ok {n : ℕ} {e : ε} {u : Unit} (h : need n e cur = .ok (u, cur')) : cur' = cur := by
  unfold need at h
  split_ifs at h
  exact (Prod.mk.inj (ok.inj h)).2.symm

theorem word_eq_ok {w v : ℕ} {e : ε} (h : word w e ⟨buf, off⟩ = .ok (v, cur')) :
    v = wordAt w buf off ∧ cur' = ⟨buf, off + w⟩ := by
  obtain ⟨_, mid, hneed, h⟩ := Reader.bind_eq_ok.mp h
  obtain rfl := need_eq_ok hneed
  obtain ⟨v', hv, h⟩ := ByteCodec.bind_eq_ok.mp h
  obtain ⟨rfl, rfl⟩ := Prod.mk.inj (ok.inj h)
  exact ⟨readLE_eq_ok hv, rfl⟩

theorem take_eq_ok {n : ℕ} {e : ε} {bs : Bytes} (h : take n e ⟨buf, off⟩ = .ok (bs, cur')) :
    cur' = ⟨buf, off + n⟩ := by
  obtain ⟨_, mid, hneed, h⟩ := Reader.bind_eq_ok.mp h
  obtain rfl := need_eq_ok hneed
  obtain ⟨_, -, h⟩ := ByteCodec.bind_eq_ok.mp h
  exact (Prod.mk.inj (ok.inj h)).2.symm

theorem field_eq_ok {w : ℕ} {e e' : ε} {bs : Bytes}
    (h : (word w e >>= fun len => take len e') ⟨buf, off⟩ = .ok (bs, cur')) :
    cur' = ⟨buf, fieldEnd w buf off⟩ := by
  obtain ⟨_, mid, hword, htake⟩ := Reader.bind_eq_ok.mp h
  obtain ⟨rfl, rfl⟩ := word_eq_ok hword
  exact take_eq_ok htake

theorem reject_eq_ok {c : Prop} [Decidable c] {e : ε} {u : Unit}
    (h : reject c e cur = .ok (u, cur')) : cur' = cur := by
  obtain ⟨_, -, h⟩ := ByteCodec.bind_eq_ok.mp h
  exact (Prod.mk.inj (ok.inj h)).2.symm

theorem lift_eq_ok {a : α} (h : lift x cur = .ok (a, cur')) : cur' = cur := by
  obtain ⟨_, -, h⟩ := ByteCodec.bind_eq_ok.mp h
  exact (Prod.mk.inj (ok.inj h)).2.symm

/-- A counted loop reads each value where the rounds before it have stopped. -/
theorem times_getElem? {next : ℕ → ℕ}
    (hnext : ∀ {off a cur'}, p ⟨buf, off⟩ = .ok (a, cur') → cur' = ⟨buf, next off⟩) {a : α} :
    ∀ {n i off : ℕ} {as : List α} {cur' : Cursor}, times n p ⟨buf, off⟩ = .ok (as, cur') →
      as[i]? = some a → ∃ cur, p ⟨buf, next^[i] off⟩ = .ok (a, cur)
  | 0, i, off, as, cur', h, ha => by
    obtain ⟨rfl, -⟩ := Prod.mk.inj (ok.inj h)
    simp at ha
  | n + 1, i, off, as, cur', h, ha => by
    obtain ⟨first, mid, hfirst, h⟩ := Reader.bind_eq_ok.mp h
    obtain ⟨rest, _, hrest, h⟩ := Reader.bind_eq_ok.mp h
    obtain ⟨rfl, -⟩ := Prod.mk.inj (ok.inj h)
    cases i with
    | zero =>
      obtain rfl : first = a := by simpa using ha
      exact ⟨mid, hfirst⟩
    | succ i =>
      obtain rfl := hnext hfirst
      have hread := times_getElem? (i := i) hnext hrest (by simpa using ha)
      exact hread

end Reads

end ByteCodec
