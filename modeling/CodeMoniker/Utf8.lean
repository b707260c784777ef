import Mathlib

/-!
# UTF-8 over byte lists

`encode` writes a list of characters as bytes, `decode?` reads them back and rejects
every byte list that is not the encoding of characters (`decode?_eq_some_iff`). `Valid`
is the set of accepted byte lists.

A byte below `0x80` is never part of a longer sequence, so a valid byte list may be
cut at such a byte and both sides stay valid (`valid_append_cons_iff`). That is the fact
a scanner needs that looks for an ASCII delimiter in the bytes of a text.
-/

namespace Utf8

open List

abbrev Bytes := List UInt8

/-- One constant for the definitions that test membership. -/
instance lawfulBEqBytes : LawfulBEq (List UInt8) := inferInstance

instance lawfulBEqChars : LawfulBEq (List Char) := inferInstance

/-! ## Encoding and decoding -/

/-- The UTF-8 bytes of a text. -/
def encode (cs : List Char) : Bytes := cs.flatMap String.utf8EncodeChar

/-- Decode at most `n` characters. Every character takes at least one byte, so the
length of the input is enough. -/
def decodeAux : ℕ → Bytes → Option (List Char)
  | _, [] => some []
  | 0, _ :: _ => none
  | n + 1, b :: bs =>
    match (b :: bs).toByteArray.utf8DecodeChar? 0 with
    | none => none
    | some c => (decodeAux n ((b :: bs).drop c.utf8Size)).map (c :: ·)

def decode? (bs : Bytes) : Option (List Char) := decodeAux bs.length bs

@[simp] theorem encode_nil : encode [] = [] := rfl

@[simp] theorem encode_cons (c : Char) (cs : List Char) :
    encode (c :: cs) = String.utf8EncodeChar c ++ encode cs := rfl

@[simp] theorem encode_append (cs ds : List Char) : encode (cs ++ ds) = encode cs ++ encode ds :=
  flatMap_append

/-- A decoded character is a prefix of the input. -/
theorem encodeChar_append_drop {bs : Bytes} {c : Char}
    (h : bs.toByteArray.utf8DecodeChar? 0 = some c) :
    String.utf8EncodeChar c ++ bs.drop c.utf8Size = bs := by
  have h1 := congrArg (fun b => b.data.toList)
    (String.toByteArray_utf8EncodeChar_of_utf8DecodeChar?_eq_some h)
  have h2 : String.utf8EncodeChar c = bs.take c.utf8Size := by simpa using h1
  rw [h2, take_append_drop]

theorem decodeChar_encodeChar_append (c : Char) (bs : Bytes) :
    (String.utf8EncodeChar c ++ bs).toByteArray.utf8DecodeChar? 0 = some c := by
  rw [toByteArray_append]
  exact ByteArray.utf8DecodeChar?_utf8EncodeChar_append

theorem encode_of_decodeAux : ∀ (n : ℕ) (bs : Bytes) (cs : List Char),
    decodeAux n bs = some cs → encode cs = bs
  | _, [], cs, h => by
    obtain rfl : cs = [] := by simpa [decodeAux, eq_comm] using h
    rfl
  | 0, _ :: _, _, h => by simp [decodeAux] at h
  | n + 1, b :: bs, cs, h => by
    rw [decodeAux] at h
    split at h
    · cases h
    · next c hc =>
      obtain ⟨ds, hds, rfl⟩ := Option.map_eq_some_iff.mp h
      rw [encode_cons, encode_of_decodeAux n _ ds hds, encodeChar_append_drop hc]

theorem decodeAux_encode : ∀ (cs : List Char) (n : ℕ), (encode cs).length ≤ n →
    decodeAux n (encode cs) = some cs
  | [], n, _ => by simp [decodeAux]
  | c :: cs, n, hn => by
    have hlen : 0 < c.utf8Size := Char.utf8Size_pos c
    have hsize := String.length_utf8EncodeChar c
    simp only [encode_cons, length_append] at hn
    obtain ⟨n, rfl⟩ : ∃ k, n = k + 1 := ⟨n - 1, by omega⟩
    obtain ⟨b, bs, hb⟩ : ∃ b bs, encode (c :: cs) = b :: bs := by
      cases h : encode (c :: cs) with
      | nil => simp [← length_eq_zero_iff, hsize] at h; omega
      | cons b bs => exact ⟨b, bs, rfl⟩
    have hc := decodeChar_encodeChar_append c (encode cs)
    rw [← encode_cons, hb] at hc
    have hdrop : (b :: bs).drop c.utf8Size = encode cs := by
      rw [← hb, encode_cons, drop_left' hsize]
    rw [hb, decodeAux, hc]
    simp only [hdrop]
    rw [decodeAux_encode cs n (by omega)]
    rfl

/-- `decode?` accepts exactly the encodings, with the characters encoded. -/
theorem decode?_eq_some_iff {bs : Bytes} {cs : List Char} :
    decode? bs = some cs ↔ encode cs = bs := by
  constructor
  · exact encode_of_decodeAux _ _ _
  · rintro rfl
    exact decodeAux_encode cs _ (Nat.le_refl _)

theorem encode_injective : Function.Injective encode := fun cs ds h => by
  have h1 := decode?_eq_some_iff.mpr h
  have h2 := decode?_eq_some_iff.mpr (rfl : encode ds = encode ds)
  exact Option.some.inj (h1.symm.trans h2)

/-! ## Valid byte lists -/

/-- `bs` is well-formed UTF-8. -/
def Valid (bs : Bytes) : Prop := (decode? bs).isSome

instance (bs : Bytes) : Decidable (Valid bs) := inferInstanceAs (Decidable (_ = true))

theorem valid_iff {bs : Bytes} : Valid bs ↔ ∃ cs, encode cs = bs := by
  simp only [Valid, Option.isSome_iff_exists, decode?_eq_some_iff]

@[simp] theorem valid_nil : Valid [] := valid_iff.mpr ⟨[], rfl⟩

@[simp] theorem valid_encode (cs : List Char) : Valid (encode cs) := valid_iff.mpr ⟨cs, rfl⟩

theorem Valid.append {a b : Bytes} (ha : Valid a) (hb : Valid b) : Valid (a ++ b) := by
  obtain ⟨cs, rfl⟩ := valid_iff.mp ha
  obtain ⟨ds, rfl⟩ := valid_iff.mp hb
  exact valid_iff.mpr ⟨cs ++ ds, encode_append cs ds⟩

/-! ## ASCII bytes -/

theorem encodeChar_ascii {c : Char} (h : c.toNat < 128) :
    String.utf8EncodeChar c = [UInt8.ofNat c.toNat] := by
  have h' : c.val.toNat ≤ 0x7f := Nat.lt_succ_iff.mp h
  simp only [String.utf8EncodeChar, if_pos h']
  rfl

theorem le_of_mem_encodeChar {c : Char} (h : 128 ≤ c.toNat) :
    ∀ b ∈ String.utf8EncodeChar c, 128 ≤ b.toNat := by
  have h' : ¬c.val.toNat ≤ 0x7f := by
    have : c.toNat = c.val.toNat := rfl
    omega
  simp only [String.utf8EncodeChar, if_neg h']
  split_ifs <;> simp only [mem_cons, not_mem_nil, or_false] <;>
    rintro b (rfl | rfl | rfl | rfl) <;> simp only [UInt8.toNat_ofNat'] <;> omega

theorem ascii_mem_encodeChar {a c : Char} (ha : a.toNat < 128) :
    UInt8.ofNat a.toNat ∈ String.utf8EncodeChar c ↔ a = c := by
  have hbyte : (UInt8.ofNat a.toNat).toNat = a.toNat := by
    rw [UInt8.toNat_ofNat']
    omega
  refine ⟨fun hmem => ?_, ?_⟩
  · rcases Nat.lt_or_ge c.toNat 128 with hlt | hge
    · rw [encodeChar_ascii hlt, mem_singleton, ← UInt8.toNat_inj, hbyte, UInt8.toNat_ofNat'] at hmem
      exact Char.toNat_inj.mp (by omega)
    · have hle := le_of_mem_encodeChar hge _ hmem
      omega
  · rintro rfl
    rw [encodeChar_ascii ha]
    exact mem_singleton_self _

theorem ascii_mem_encode {a : Char} (ha : a.toNat < 128) {cs : List Char} :
    UInt8.ofNat a.toNat ∈ encode cs ↔ a ∈ cs := by
  simp only [encode, mem_flatMap, ascii_mem_encodeChar ha, exists_eq_right']

/-- A valid byte list stays valid on both sides of an ASCII byte. -/
theorem valid_of_encode_eq_append_cons {b : UInt8} (hb : b.toNat < 128) :
    ∀ (cs : List Char) (xs ys : Bytes), encode cs = xs ++ b :: ys → Valid xs ∧ Valid ys
  | [], xs, ys, h => by simp at h
  | c :: cs, xs, ys, h => by
    rw [encode_cons] at h
    rcases append_eq_append_iff.mp h with ⟨as, hxs, hcs⟩ | ⟨as, hc, hys⟩
    · -- the character ends before the cut
      obtain ⟨h1, h2⟩ := valid_of_encode_eq_append_cons hb cs as ys hcs
      have hc : Valid (String.utf8EncodeChar c) := by simpa using valid_encode [c]
      exact ⟨hxs ▸ hc.append h1, h2⟩
    · cases as with
      | nil =>
        obtain ⟨-, h2⟩ := valid_of_encode_eq_append_cons hb cs [] ys (by simpa using hys.symm)
        have hc' : Valid (String.utf8EncodeChar c) := by simpa using valid_encode [c]
        rw [append_nil] at hc
        exact ⟨hc ▸ hc', h2⟩
      | cons a as =>
        -- the cut is inside the character, which is then the single byte `b`
        obtain ⟨rfl, rfl⟩ := cons.inj hys
        have hmem : b ∈ String.utf8EncodeChar c := by simp [hc]
        have hascii : c.toNat < 128 := by
          by_contra hge
          have := le_of_mem_encodeChar (Nat.not_lt.mp hge) b hmem
          omega
        rw [encodeChar_ascii hascii] at hc
        obtain ⟨rfl, rfl⟩ : xs = [] ∧ as = [] := by
          cases xs with
          | nil => exact ⟨rfl, by simpa [eq_comm] using (cons.inj hc).2⟩
          | cons x xs => simp at hc
        exact ⟨valid_nil, valid_encode cs⟩

theorem valid_singleton {b : UInt8} (hb : b.toNat < 128) : Valid [b] := by
  refine valid_iff.mpr ⟨[Char.ofNat b.toNat], ?_⟩
  have hc : (Char.ofNat b.toNat).toNat = b.toNat := by
    have : b.toNat.isValidChar := Or.inl (by omega)
    simp [Char.ofNat, this, Char.toNat, Char.ofNatAux]
  rw [encode_cons, encodeChar_ascii (by omega), hc]
  simp

theorem valid_append_cons_iff {b : UInt8} (hb : b.toNat < 128) {xs ys : Bytes} :
    Valid (xs ++ b :: ys) ↔ Valid xs ∧ Valid ys := by
  constructor
  · intro h
    obtain ⟨cs, hcs⟩ := valid_iff.mp h
    exact valid_of_encode_eq_append_cons hb cs xs ys hcs
  · rintro ⟨hx, hy⟩
    exact hx.append ((valid_singleton hb).append hy)

theorem valid_cons_iff {b : UInt8} (hb : b.toNat < 128) {ys : Bytes} :
    Valid (b :: ys) ↔ Valid ys := by
  have h := @valid_append_cons_iff b hb [] ys
  simpa using h

/-- Text made of ASCII bytes only. -/
theorem valid_of_ascii : ∀ {bs : Bytes}, (∀ b ∈ bs, b.toNat < 128) → Valid bs
  | [], _ => valid_nil
  | b :: bs, h => (valid_cons_iff (h b (by simp))).mpr
      (valid_of_ascii fun x hx => h x (by simp [hx]))

end Utf8
