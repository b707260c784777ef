import CodeMoniker.StableSort

/-!
# Notes

The document of the workspace notes and the four ways to change it. Each of them keeps the ids
of the notes distinct (`NoteEdit.distinctIds_apply`).
-/

namespace CodeMoniker.Notes

open List Except

inductive NoteKind
  | note
  | todo
  | gotcha
  | request
  deriving DecidableEq, Repr

inductive NoteStatus
  | pending
  | ongoing
  | done
  deriving DecidableEq, Repr

inductive NoteAuthor
  | user
  | agent
  deriving DecidableEq, Repr

namespace NoteStatus

/-- The derived debug text. -/
def debug : NoteStatus → String
  | pending => "Pending"
  | ongoing => "Ongoing"
  | done => "Done"

/-- The derived order. -/
def rank : NoteStatus → ℕ
  | pending => 0
  | ongoing => 1
  | done => 2

def canTransitionTo (self target : NoteStatus) : Bool :=
  (match self, target with
    | pending, ongoing | pending, done | ongoing, pending | ongoing, done | done, ongoing => true
    | _, _ => false) || self == target

end NoteStatus

structure Note where
  id : String
  moniker : String
  kind : NoteKind
  status : NoteStatus
  title : String
  body : String
  createdBy : NoteAuthor
  createdAt : String
  updatedAt : String
  deriving DecidableEq, Repr

structure NoteChanges where
  moniker : Option String := none
  kind : Option NoteKind := none
  title : Option String := none
  body : Option String := none
  deriving DecidableEq, Repr

structure NotesDocument where
  notes : List Note := []
  deriving DecidableEq, Repr

def Note.transitionTo (note : Note) (target : NoteStatus) (updatedAt : String) :
    Except String Note :=
  if note.status.canTransitionTo target then
    .ok { note with status := target, updatedAt := updatedAt }
  else .error s!"invalid note status transition: {note.status.debug} -> {target.debug}"

def NoteChanges.apply (changes : NoteChanges) (updatedAt : String) (note : Note) : Note where
  id := note.id
  moniker := changes.moniker.getD note.moniker
  kind := changes.kind.getD note.kind
  status := note.status
  title := changes.title.getD note.title
  body := changes.body.getD note.body
  createdBy := note.createdBy
  createdAt := note.createdAt
  updatedAt := updatedAt

def missingNote (id : String) : String := s!"note id `{id}` does not exist"

/-- Change the first note with the id. -/
def changeFirst (id : String) (change : Note → Except String Note) :
    List Note → Except String (List Note)
  | [] => .error (missingNote id)
  | note :: notes =>
    if note.id = id then (change note).map (· :: notes)
    else (changeFirst id change notes).map (note :: ·)

/-- Remove the first note with the id. -/
def removeFirst (id : String) : List Note → Except String (List Note)
  | [] => .error (missingNote id)
  | note :: notes => if note.id = id then .ok notes else (removeFirst id notes).map (note :: ·)

namespace NotesDocument

variable (document : NotesDocument)

def get (id : String) : Option Note :=
  document.notes.find? (·.id = id)

/-- By status, the last updated first, then by id. -/
def sortKey (note : Note) : ℕ ×ₗ OrderDual String ×ₗ String :=
  toLex (note.status.rank, toLex (OrderDual.toDual note.updatedAt, note.id))

def sortNotes : NotesDocument :=
  ⟨StableSort.stableSort sortKey document.notes⟩

def insert (note : Note) : Except String NotesDocument :=
  if document.notes.any (·.id = note.id) then .error s!"note id `{note.id}` already exists"
  else .ok (sortNotes ⟨document.notes ++ [note]⟩)

/-- A changed document is sorted, and the note looked up again. -/
def change (document : NotesDocument) (id after : String) (change : Note → Except String Note) :
    Except String NotesDocument := do
  let sorted := sortNotes ⟨← changeFirst id change document.notes⟩
  match sorted.get id with
  | none => .error s!"note id `{id}` does not exist after {after}"
  | some _ => return sorted

def update (document : NotesDocument) (id : String) (changes : NoteChanges) (updatedAt : String) :
    Except String NotesDocument :=
  document.change id "update" fun note => .ok (changes.apply updatedAt note)

def transition (document : NotesDocument) (id : String) (status : NoteStatus) (updatedAt : String) :
    Except String NotesDocument :=
  document.change id "transition" (·.transitionTo status updatedAt)

def delete (id : String) : Except String NotesDocument :=
  (removeFirst id document.notes).map (⟨·⟩)

def DistinctIds : Prop := (document.notes.map (·.id)).Nodup

end NotesDocument

/-- The changes of a document. -/
inductive NoteEdit
  | insert (note : Note)
  | update (id : String) (changes : NoteChanges) (updatedAt : String)
  | transition (id : String) (status : NoteStatus) (updatedAt : String)
  | delete (id : String)

def NoteEdit.apply (edit : NoteEdit) (document : NotesDocument) : Except String NotesDocument :=
  match edit with
  | .insert note => document.insert note
  | .update id changes updatedAt => document.update id changes updatedAt
  | .transition id status updatedAt => document.transition id status updatedAt
  | .delete id => document.delete id

/-! ## Distinct ids -/

theorem distinctIds_sortNotes {document : NotesDocument} :
    document.sortNotes.DistinctIds ↔ document.DistinctIds := by
  have hperm : (StableSort.stableSort NotesDocument.sortKey document.notes).Perm document.notes :=
    perm_insertionSort _ _
  exact (hperm.map (·.id)).nodup_iff

theorem ids_changeFirst {id : String} {change : Note → Except String Note}
    (hid : ∀ note note', change note = .ok note' → note'.id = note.id) :
    ∀ {notes notes' : List Note}, changeFirst id change notes = .ok notes' →
      notes'.map (·.id) = notes.map (·.id)
  | [], _, h => nomatch h
  | note :: notes, notes', h => by
    rw [changeFirst] at h
    split_ifs at h
    · cases hchange : change note with
      | error e =>
        rw [hchange] at h
        cases h
      | ok changed =>
        rw [hchange] at h
        obtain rfl := ok.inj h
        rw [map_cons, map_cons, hid note changed hchange]
    · cases hrest : changeFirst id change notes with
      | error e =>
        rw [hrest] at h
        cases h
      | ok rest =>
        rw [hrest] at h
        obtain rfl := ok.inj h
        rw [map_cons, map_cons, ids_changeFirst hid hrest]

theorem sublist_removeFirst {id : String} : ∀ {notes notes' : List Note},
    removeFirst id notes = .ok notes' → notes'.Sublist notes
  | [], _, h => nomatch h
  | note :: notes, notes', h => by
    rw [removeFirst] at h
    split_ifs at h
    · obtain rfl := ok.inj h
      exact sublist_cons_self note notes
    · cases hrest : removeFirst id notes with
      | error e =>
        rw [hrest] at h
        cases h
      | ok rest =>
        rw [hrest] at h
        obtain rfl := ok.inj h
        exact (sublist_removeFirst hrest).cons_cons note

theorem distinctIds_change {document document' : NotesDocument} {id after : String}
    {change : Note → Except String Note} (h : document.DistinctIds)
    (hid : ∀ note note', change note = .ok note' → note'.id = note.id)
    (hok : document.change id after change = .ok document') : document'.DistinctIds := by
  unfold NotesDocument.change at hok
  cases hchanged : changeFirst id change document.notes with
  | error e =>
    rw [hchanged] at hok
    cases hok
  | ok notes =>
    rw [hchanged] at hok
    have hnotes : NotesDocument.DistinctIds ⟨notes⟩ := by
      unfold NotesDocument.DistinctIds
      rw [ids_changeFirst hid hchanged]
      exact h
    cases hget : (NotesDocument.sortNotes ⟨notes⟩).get id with
    | none =>
      simp only [bind, Except.bind, hget] at hok
      cases hok
    | some note =>
      simp only [bind, Except.bind, hget] at hok
      obtain rfl := Except.ok.inj hok
      exact distinctIds_sortNotes.mpr hnotes

/-- Every edit keeps the ids distinct. -/
theorem NoteEdit.distinctIds_apply {document document' : NotesDocument} (edit : NoteEdit)
    (h : document.DistinctIds) (hok : edit.apply document = .ok document') :
    document'.DistinctIds := by
  cases edit with
  | insert note =>
    simp only [apply, NotesDocument.insert] at hok
    split_ifs at hok with hany
    obtain rfl := ok.inj hok
    refine distinctIds_sortNotes.mpr ?_
    simp only [any_eq_true, decide_eq_true_eq, not_exists, not_and] at hany
    unfold NotesDocument.DistinctIds
    rw [map_append, nodup_append]
    refine ⟨h, nodup_singleton _, fun id hmem id' hmem' heq => ?_⟩
    obtain ⟨other, hother, rfl⟩ := mem_map.mp hmem
    obtain rfl : id' = note.id := by simpa using hmem'
    exact hany other hother heq
  | update id changes updatedAt =>
    refine distinctIds_change h (fun note note' hnote => ?_) hok
    rw [← ok.inj hnote]
    rfl
  | transition id status updatedAt =>
    refine distinctIds_change h (fun note note' hnote => ?_) hok
    unfold Note.transitionTo at hnote
    split_ifs at hnote
    rw [← ok.inj hnote]
  | delete id =>
    simp only [apply, NotesDocument.delete] at hok
    cases hrest : removeFirst id document.notes with
    | error e =>
      rw [hrest] at hok
      cases hok
    | ok notes =>
      rw [hrest] at hok
      obtain rfl := ok.inj hok
      exact h.sublist ((sublist_removeFirst hrest).map _)

end CodeMoniker.Notes
