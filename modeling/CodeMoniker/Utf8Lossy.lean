import CodeMoniker.Utf8

/-!
# Lossy UTF-8 reading

`fromUtf8Lossy` reads any byte list as text : it keeps the characters and writes one
replacement character for each maximal prefix of a character that the next byte breaks
off. What it returns is valid (`valid_fromUtf8Lossy`), and a valid byte list is left as it
is (`Valid.fromUtf8Lossy`).
-/

namespace Utf8

def isContinuation (b : UInt8) : Bool := 0x80 ≤ b && b ≤ 0xbf

/-- The bytes that may follow the first byte of a character of three or four bytes. -/
def startsLongChar (b0 b1 : UInt8) : Bool :=
  (b0 == 0xe0 && 0xa0 ≤ b1 && b1 ≤ 0xbf) ||
  (0xe1 ≤ b0 && b0 ≤ 0xec && isContinuation b1) ||
  (b0 == 0xed && 0x80 ≤ b1 && b1 ≤ 0x9f) ||
  (0xee ≤ b0 && b0 ≤ 0xef && isContinuation b1) ||
  (b0 == 0xf0 && 0x90 ≤ b1 && b1 ≤ 0xbf) ||
  (0xf1 ≤ b0 && b0 ≤ 0xf3 && isContinuation b1) ||
  (b0 == 0xf4 && 0x80 ≤ b1 && b1 ≤ 0x8f)

/-- The length of what one replacement character stands for, at the head of a byte list
that does not start with a character. -/
def brokenLen : Bytes → ℕ
  | b0 :: b1 :: rest =>
    if startsLongChar b0 b1 then
      match rest with
      | b2 :: _ => if 0xf0 ≤ b0 ∧ isContinuation b2 then 3 else 2
      | [] => 2
    else 1
  | _ => 1

/-- At most `n` characters, as in `decodeAux`. -/
def lossyAux : ℕ → Bytes → Bytes
  | _, [] => []
  | 0, _ :: _ => []
  | n + 1, b :: bs =>
    match (b :: bs).toByteArray.utf8DecodeChar? 0 with
    | some c => String.utf8EncodeChar c ++ lossyAux n ((b :: bs).drop c.utf8Size)
    | none =>
      String.utf8EncodeChar (Char.ofNat 0xfffd) ++
        lossyAux n ((b :: bs).drop (brokenLen (b :: bs)))

/-- `String::from_utf8_lossy`. -/
def fromUtf8Lossy (bs : Bytes) : Bytes := lossyAux bs.length bs

theorem valid_encodeChar (c : Char) : Valid (String.utf8EncodeChar c) := by
  have h : encode [c] = String.utf8EncodeChar c := by simp
  exact h ▸ valid_encode [c]

theorem valid_lossyAux : ∀ (n : ℕ) (bs : Bytes), Valid (lossyAux n bs)
  | _, [] => by simp [lossyAux]
  | 0, _ :: _ => by simp [lossyAux]
  | n + 1, b :: bs => by
    rw [lossyAux]
    split
    · exact (valid_encodeChar _).append (valid_lossyAux n _)
    · exact (valid_encodeChar _).append (valid_lossyAux n _)

theorem valid_fromUtf8Lossy (bs : Bytes) : Valid (fromUtf8Lossy bs) := valid_lossyAux _ bs

theorem lossyAux_of_decodeAux : ∀ (n : ℕ) (bs : Bytes) (cs : List Char),
    decodeAux n bs = some cs → lossyAux n bs = bs
  | _, [], _, _ => by simp [lossyAux]
  | 0, _ :: _, _, h => by simp [decodeAux] at h
  | n + 1, b :: bs, cs, h => by
    rw [decodeAux] at h
    split at h
    · cases h
    · next c hc =>
      obtain ⟨ds, hds, -⟩ := Option.map_eq_some_iff.mp h
      rw [lossyAux, hc]
      simp only [lossyAux_of_decodeAux n _ ds hds]
      exact encodeChar_append_drop hc

theorem Valid.fromUtf8Lossy {bs : Bytes} (h : Valid bs) : Utf8.fromUtf8Lossy bs = bs := by
  obtain ⟨cs, hcs⟩ := Option.isSome_iff_exists.mp h
  exact lossyAux_of_decodeAux _ bs cs hcs

/-- Latin-1 in a text, and a character of three bytes cut after two. -/
example : fromUtf8Lossy [0x61, 0x96, 0x62] = [0x61, 0xef, 0xbf, 0xbd, 0x62] ∧
    fromUtf8Lossy [0xe2, 0x82, 0x61] = [0xef, 0xbf, 0xbd, 0x61] := by decide

end Utf8
