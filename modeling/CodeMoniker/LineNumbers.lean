import CodeMoniker.DocComments
import CodeMoniker.Fingerprints

/-!
# Line numbers in 32 bits

A line number is computed by counting the line feeds before an offset, or from the offsets at which
lines start. Both ways agree everywhere (`lineRangeU32_new`). The number of a line is one more than
the number of line feeds before it, and in 32 bits the only offset where it wraps is the last one,
after line feeds only (`lineRangeU32_iff`).
-/

namespace CodeMoniker

open List ByteCodec

variable (source : Bytes)

/-- `line_range` with the line numbers as they are returned. -/
def lineRangeU32 (start stop : UInt32) : UInt32 × UInt32 :=
  let s := min start.toNat source.length
  let e := max (min stop.toNat source.length) s
  let last := if s < e then e - 1 else s
  (1 + UInt32.ofNat (newlines source s),
    1 + UInt32.ofNat (newlines source (min last source.length)))

namespace LineIndex

def lineAtU32 (lines : LineIndex) (offset : ℕ) : UInt32 :=
  UInt32.ofNat (partitionPoint (· ≤ offset) lines.lineStarts)

def lineRangeU32 (lines : LineIndex) (start stop : UInt32) : UInt32 × UInt32 :=
  let s := min start.toNat lines.sourceLen
  let e := max (min stop.toNat lines.sourceLen) s
  let last := if s < e then e - 1 else s
  (lines.lineAtU32 s, lines.lineAtU32 (min last lines.sourceLen))

/-- Of the lines that start from `n` on, those that start up to an offset follow the line feeds
before it. -/
theorem partitionPoint_starts : ∀ (source : Bytes) (n offset : ℕ), partitionPoint (· ≤ n + offset)
      (((source.zipIdx n).filter fun b => b.1 = 0x0A).map (·.2 + 1)) = newlines source offset
  | [], _, _ => by simp [newlines, partitionPoint]
  | b :: source, n, 0 => by
    rw [newlines, take_zero, countP_nil, partitionPoint]
    cases hstarts : (((b :: source).zipIdx n).filter fun b => b.1 = 0x0A).map (·.2 + 1) with
    | nil => rfl
    | cons start starts =>
      obtain ⟨⟨b', idx⟩, hmem, rfl⟩ := mem_map.mp (hstarts ▸ mem_cons_self)
      have hidx : n ≤ idx := (mem_zipIdx (List.mem_filter.mp hmem).1).1
      rw [takeWhile_cons, if_neg (by simp only [decide_eq_true_iff]; omega)]
      rfl
  | b :: source, n, offset + 1 => by
    have ih := partitionPoint_starts source (n + 1) offset
    rw [Nat.add_assoc, Nat.add_comm 1] at ih
    rw [zipIdx_cons, newlines, take_succ_cons, countP_cons]
    by_cases hb : b = 0x0A
    · rw [filter_cons_of_pos (by simpa using hb), map_cons, partitionPoint, takeWhile_cons,
        if_pos (by simp only [decide_eq_true_iff]; omega), length_cons, if_pos (by simpa using hb)]
      exact congrArg (· + 1) ih
    · rw [filter_cons_of_neg (by simpa using hb), if_neg (by simpa using hb)]
      exact ih

theorem partitionPoint_new (offset : ℕ) :
    partitionPoint (· ≤ offset) (LineIndex.new source).lineStarts = newlines source offset + 1 := by
  have hstarts := partitionPoint_starts source 0 offset
  rw [Nat.zero_add] at hstarts
  rw [LineIndex.new, partitionPoint, takeWhile_cons, if_pos (by simp), length_cons]
  exact congrArg (· + 1) hstarts

end LineIndex

theorem lineRangeU32_new (start stop : UInt32) :
    (LineIndex.new source).lineRangeU32 start stop = lineRangeU32 source start stop := by
  simp only [LineIndex.lineRangeU32, LineIndex.lineAtU32, LineIndex.partitionPoint_new,
    lineRangeU32, Nat.add_comm _ 1, UInt32.ofNat_add]
  rfl

theorem newlines_le (offset : ℕ) : newlines source offset ≤ offset :=
  countP_le_length.trans (length_take_le ..)

theorem toNat_line (n : ℕ) : (1 + UInt32.ofNat n).toNat = (1 + n) % 2 ^ 32 := by
  rw [UInt32.toNat_add, UInt32.toNat_ofNat']
  simp

/-- The offset after `2 ^ 32 - 1` line feeds, from which no line is counted. -/
def Wraps (start : UInt32) : Prop :=
  start.toNat = 2 ^ 32 - 1 ∧ newlines source (2 ^ 32 - 1) = 2 ^ 32 - 1

/-- Both ways give lines from one on, the first one first, if and only if the start does not
wrap. -/
theorem lineRangeU32_iff (source : Bytes) (start stop : UInt32) :
    ((LineIndex.new source).lineRangeU32 start stop = lineRangeU32 source start stop ∧
      (lineRangeU32 source start stop).1 ≤ (lineRangeU32 source start stop).2 ∧
      1 ≤ (lineRangeU32 source start stop).1 ∧ 1 ≤ (lineRangeU32 source start stop).2) ↔
      ¬Wraps source start := by
  rw [lineRangeU32_new, eq_self, true_and]
  have hstart := start.toNat_lt
  have hstop := stop.toNat_lt
  have hlength : newlines source (2 ^ 32 - 1) ≤ source.length :=
    (take_sublist _ _).countP_le.trans countP_le_length
  have hs := newlines_le source (min start.toNat source.length)
  simp only [lineRangeU32, UInt32.le_iff_toNat_le, toNat_line, UInt32.toNat_one, Wraps]
  split_ifs with hlt
  · -- the last byte comes before the end, which is at most `2 ^ 32 - 1`
    have hlast := newlines_le source
      (min (max (min stop.toNat source.length) (min start.toNat source.length) - 1) source.length)
    have hmono := newlines_mono source (a := min start.toNat source.length)
      (b := min (max (min stop.toNat source.length) (min start.toNat source.length) - 1)
        source.length) (by omega)
    omega
  · rw [min_eq_left (min_le_right _ _)]
    by_cases hmax : start.toNat = 2 ^ 32 - 1
    · by_cases hlong : 2 ^ 32 - 1 ≤ source.length
      · rw [hmax, min_eq_left hlong] at hs ⊢
        omega
      · rw [hmax, min_eq_right (by omega)] at hs ⊢
        omega
    · omega

/-- In a source of `2 ^ 32 - 1` line feeds the last offset stands on line zero. -/
theorem lineRangeU32_wraps :
    lineRangeU32 (replicate (2 ^ 32 - 1) 0x0A) (UInt32.ofNat (2 ^ 32 - 1)) 0 = (0, 0) := by
  have hnewlines : ∀ n, newlines (replicate n 0x0A) n = n := fun n => by
    simp [newlines, countP_replicate]
  have hstart : (UInt32.ofNat (2 ^ 32 - 1)).toNat = 2 ^ 32 - 1 := rfl
  simp only [lineRangeU32, length_replicate, hstart, min_self, UInt32.toNat_zero, Nat.zero_min,
    Nat.zero_max, lt_irrefl, if_false, hnewlines]
  rfl

end CodeMoniker
