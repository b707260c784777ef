import CodeMoniker.DocComments

/-!
# Sharded record tables

The records of the code index stand in one shard for each file slot. A position is looked up by a
partition point in the offsets of the shards, where an empty shard has the offset of the next one.
`recordTable_flat` says that the table is the list of its records, whatever shards were replaced.
-/

namespace CodeMoniker

open List

structure RecordTable (α : Type) where
  shards : List (List α)
  offsets : List ℕ

namespace RecordTable

variable {α : Type}

/-- The loop of `rebuild_offsets`. -/
def offsetsFrom : ℕ → List (List α) → List ℕ
  | _, [] => []
  | total, shard :: shards => (total + shard.length) :: offsetsFrom (total + shard.length) shards

variable (t : RecordTable α)

def rebuildOffsets : RecordTable α :=
  { t with offsets := 0 :: offsetsFrom 0 t.shards }

variable (shards : List (List α))

def fromShards : RecordTable α := rebuildOffsets ⟨shards, []⟩

def len : ℕ := t.offsets.getLast?.getD 0

/-- The record at a position, if there is one. Where an index is out of range there is no
answer. -/
def get (index : ℕ) : Option (Option α) := do
  if t.len ≤ index then return none
  let slot := partitionPoint (· ≤ index) t.offsets - 1
  let shard ← t.shards[slot]?
  let offset ← t.offsets[slot]?
  return shard[index - offset]?

def iter : List α := t.shards.flatten

def fileRecords (slot : ℕ) : List α := (t.shards[slot]?).getD []

def placeShard (slot : ℕ) (records : List α) : List (List α) :=
  if slot < shards.length then shards.set slot records
  else if slot = shards.length then shards ++ [records]
  else shards

def replace (slot : ℕ) (records : List α) : RecordTable α :=
  rebuildOffsets { t with shards := placeShard t.shards slot records }

def reference (t : RecordTable ReferenceRecord) (id : ReferenceId) : Option ReferenceRecord :=
  ((t.fileRecords id.file)[id.reference]?.filter (·.id = id)).or (t.iter.find? (·.id = id))

/-! ## Positions -/

theorem getLast?_offsetsFrom (total : ℕ) :
    (total :: offsetsFrom total shards).getLast? = some (total + shards.flatten.length) := by
  induction shards generalizing total with
  | nil => rfl
  | cons shard shards ih =>
    rw [offsetsFrom, getLast?_cons_cons, ih, flatten_cons, length_append, Nat.add_assoc]

/-- The partition point skips the shards that end at or before the position, and with them the empty
shards at its end. -/
theorem exists_slot {index : ℕ} : ∀ (shards : List (List α)) (total : ℕ), total ≤ index →
    index < total + shards.flatten.length → ∃ shard offset,
      shards[partitionPoint (· ≤ index) (offsetsFrom total shards)]? = some shard ∧
      (total :: offsetsFrom total shards)[partitionPoint (· ≤ index)
        (offsetsFrom total shards)]? = some offset ∧
      shard[index - offset]? = shards.flatten[index - total]?
  | [], total, hle, hlt => absurd hlt (not_lt.mpr hle)
  | shard :: shards, total, hle, hlt => by
    rw [flatten_cons, length_append, ← Nat.add_assoc] at hlt
    rw [offsetsFrom, partitionPoint, takeWhile_cons]
    by_cases hend : total + shard.length ≤ index
    · obtain ⟨found, offset, hfound, hoffset, hget⟩ := exists_slot shards _ hend hlt
      rw [if_pos (decide_eq_true hend), length_cons]
      refine ⟨found, offset, hfound, hoffset, hget.trans ?_⟩
      rw [flatten_cons, getElem?_append_right (by omega), Nat.sub_sub]
    · rw [if_neg (by simpa using hend)]
      refine ⟨shard, total, rfl, rfl, ?_⟩
      rw [flatten_cons, getElem?_append_left (by omega)]

theorem len_rebuildOffsets : t.rebuildOffsets.len = t.iter.length := by
  rw [len, rebuildOffsets, getLast?_offsetsFrom, Option.getD_some, Nat.zero_add, iter]

theorem get_rebuildOffsets (index : ℕ) : t.rebuildOffsets.get index = some t.iter[index]? := by
  rw [get, len_rebuildOffsets]
  split_ifs with hlen
  · rw [getElem?_eq_none hlen]
    rfl
  · obtain ⟨shard, offset, hshard, hoffset, hget⟩ :=
      exists_slot t.shards 0 (Nat.zero_le index) (by rw [Nat.zero_add]; exact not_le.mp hlen)
    have hslot : partitionPoint (· ≤ index) t.rebuildOffsets.offsets - 1 =
        partitionPoint (· ≤ index) (offsetsFrom 0 t.shards) := by
      rw [rebuildOffsets, partitionPoint, takeWhile_cons, if_pos (by simp)]
      rfl
    rw [hslot]
    simp only [rebuildOffsets, hshard, hoffset]
    exact congrArg some hget

/-! ## Runs -/

/-- The table after any calls of `replace`. -/
def run (calls : List (ℕ × List α)) : RecordTable α :=
  calls.foldl (fun t call => t.replace call.1 call.2) (fromShards shards)

theorem run_eq (calls : List (ℕ × List α)) : run shards calls =
      fromShards (calls.foldl (fun shards call => placeShard shards call.1 call.2) shards) := by
  induction calls generalizing shards with
  | nil => rfl
  | cons call calls ih => exact ih (placeShard shards call.1 call.2)

theorem reference_eq_some {t : RecordTable ReferenceRecord} {id : ReferenceId}
    {r : ReferenceRecord} (hids : (t.iter.map (·.id)).Nodup) :
    t.reference id = some r ↔ r ∈ t.iter ∧ r.id = id := by
  have hslot : ∀ {record}, (t.fileRecords id.file)[id.reference]? = some record →
      record ∈ t.iter := fun {record} h => by
    unfold fileRecords at h
    cases hshard : t.shards[id.file]? with
    | none => simp [hshard] at h
    | some shard =>
      rw [hshard] at h
      exact mem_flatten.mpr ⟨shard, mem_of_getElem? hshard, mem_of_getElem? h⟩
  have hsound : ∀ {record}, t.reference id = some record → record ∈ t.iter ∧ record.id = id := by
    intro record h
    rcases Option.or_eq_some_iff.mp h with h | ⟨-, h⟩
    · obtain ⟨h, hid⟩ := Option.filter_eq_some_iff.mp h
      exact ⟨hslot h, of_decide_eq_true hid⟩
    · exact ⟨mem_of_find?_eq_some h, by simpa using find?_some h⟩
  refine ⟨hsound, fun ⟨hmem, hid⟩ => ?_⟩
  cases h : t.reference id with
  | none =>
    have hnone := (Option.or_eq_none_iff.mp h).2
    exact absurd hid (by simpa using find?_eq_none.mp hnone r hmem)
  | some record =>
    obtain ⟨hmem', hid'⟩ := hsound h
    rw [inj_on_of_nodup_map hids hmem' hmem (hid'.trans hid.symm)]

end RecordTable

open RecordTable in
/-- A table that was built from shards and changed by any calls of `replace` is one list, and a
reference is found by its id. -/
theorem recordTable_flat : (∀ {α : Type} (shards : List (List α)) (calls : List (ℕ × List α)),
      let flat := (calls.foldl (fun shards call => placeShard shards call.1 call.2) shards).flatten
      (run shards calls).len = flat.length ∧ (run shards calls).iter = flat ∧
        ∀ index, (run shards calls).get index = some flat[index]?) ∧
    ∀ (shards : List (List ReferenceRecord)) (calls : List (ℕ × List ReferenceRecord)),
      ((run shards calls).iter.map (·.id)).Nodup → ∀ (id : ReferenceId) (r : ReferenceRecord),
        (run shards calls).reference id = some r ↔ r ∈ (run shards calls).iter ∧ r.id = id := by
  refine ⟨fun shards calls => ?_, fun shards calls hids id r => reference_eq_some hids⟩
  rw [run_eq]
  exact ⟨len_rebuildOffsets _, rfl, get_rebuildOffsets _⟩

end CodeMoniker
