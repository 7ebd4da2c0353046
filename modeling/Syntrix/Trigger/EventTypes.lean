import Mathlib.Data.List.Basic
import Mathlib.Logic.Function.Basic
import Syntrix.Trigger.Evaluator

/-! # The types of events

A soft delete is an update of the document and a creation over a tombstone replaces it. The notification of an
update carries the document as it is found when the notification is read, so that later writes may show in it.
-/
namespace Syntrix.Trigger.EventTypes

open List Function

/-- The database and the path of a document. -/
abbrev Key := String × String

abbrev Store := Key → Option Document

inductive Operation where
  | create (key : Key)
  | update (key : Key)
  | patch (key : Key)
  | delete (key : Key)

def Operation.key : Operation → Key
  | .create key | .update key | .patch key | .delete key => key

def Operation.type : Operation → EventType
  | .create _ => .create
  | .update _ | .patch _ => .update
  | .delete _ => .delete

/-- What an operation commits; the data of a document and its version are left out. -/
def commit (s : Store) : Operation → Option (StoreOperation × Store)
  | .create key =>
    match s key with
    | none => some (.insert, update s key (some ⟨key.1, key.2, false⟩))
    | some old => if old.deleted then some (.replace, update s key (some ⟨key.1, key.2, false⟩)) else none
  | .update key | .patch key =>
    match s key with
    | none => none
    | some old => if old.deleted then none else some (.update, s)
  | .delete key =>
    match s key with
    | none => none
    | some old => if old.deleted then none else some (.update, update s key (some { old with deleted := true }))

/-- The store after `n` of the operations that follow. -/
def after (s : Store) (later : List (Operation × Nat)) (n : Nat) : Store :=
  (later.take n).foldl (fun s x => ((commit s x.1).map (·.2)).getD s) s

/-- The notifications of the committed operations; the image of an update is looked up after the given number of
later operations. -/
def stream (s : Store) : List (Operation × Nat) → List (Operation × Change)
  | [] => []
  | (op, n) :: later =>
    match commit s op with
    | none => stream s later
    | some (.update, s') => (op, ⟨.update, after s' later n op.key⟩) :: stream s' later
    | some (opType, s') => (op, ⟨opType, s' op.key⟩) :: stream s' later

/-- The image that is looked up for an update is a tombstone just if the update has made it one. -/
def prompt (s : Store) : List (Operation × Nat) → Bool
  | [] => true
  | (op, n) :: later =>
    match commit s op with
    | none => prompt s later
    | some (.update, s') =>
      (after s' later n op.key).any Document.deleted = (s' op.key).any Document.deleted && prompt s' later
    | some (_, s') => prompt s' later

variable {s s' : Store} {op : Operation} {opType : StoreOperation}

theorem commit_create (h : commit s op = some (opType, s')) (hType : opType ≠ .update) :
    op.type = .create ∧ (opType = .insert ∨ opType = .replace) ∧ (s' op.key).any Document.deleted = false := by
  cases op <;> simp only [commit] at h <;> repeat' split at h
  all_goals cases h
  all_goals first | contradiction | simp [Operation.type, Operation.key]

theorem commit_update (h : commit s op = some (.update, s')) :
    op.type = if (s' op.key).any Document.deleted then .delete else .update := by
  cases op <;> simp only [commit] at h <;> repeat' split at h
  all_goals cases h
  all_goals simp_all [Operation.type, Operation.key]

/-- The type of the event that `transform` makes of a change. -/
def eventType (c : Change) : Option EventType := (transform c).toOption.map (·.type)

theorem eventType_update (image : Option Document) :
    eventType ⟨.update, image⟩ = some (if image.any Document.deleted then .delete else .update) := by
  simp only [eventType, transform]
  split <;> rfl

theorem eventType_create {image : Option Document} (hType : opType = .insert ∨ opType = .replace)
    (hImage : image.any Document.deleted = false) : eventType ⟨opType, image⟩ = some .create := by
  rcases hType with rfl | rfl
  · rfl
  · simp [eventType, transform, hImage, Except.toOption]

/-- A delete is told from an update by its image only. -/
theorem event_types_follow_iff (s : Store) (history : List (Operation × Nat)) :
    ((stream s history).map (·.2)).filterMap eventType = (stream s history).map (·.1.type) ↔ prompt s history := by
  induction history generalizing s with
  | nil => simp [stream, prompt]
  | cons x later ih =>
    simp only [stream, prompt]
    split
    · exact ih s
    · rename_i s' hCommit
      rw [map_cons, map_cons, filterMap_cons_some (eventType_update _), cons.injEq, ih, commit_update hCommit]
      grind
    · rename_i opType s' hNot hCommit
      obtain ⟨hOp, hType, hImage⟩ := commit_create hCommit hNot
      rw [map_cons, map_cons, filterMap_cons_some (eventType_create hType hImage), cons.injEq, ih, hOp]
      simp

/-- The update is read after the document was deleted. -/
theorem update_typed_delete : ((stream (fun _ => none) [(.create ("a", "p"), 0), (.update ("a", "p"), 1), (.delete ("a", "p"), 0)]).map
    (·.2)).filterMap eventType = [.create, .delete, .delete] := by
  decide

end Syntrix.Trigger.EventTypes
