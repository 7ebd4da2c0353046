import Syntrix.Query.Replace
import Syntrix.Storage.SetUpdate

/-! # Patching a document

The fields of a patch are set below the data of the stored record by their names. The database takes a
name with dots for a path, so such a field is not set under its name, and a field of another name is
changed inside.
-/
namespace Syntrix.Core

open Lib Model Index Syntrix.Storage Gateway Option

variable (mongo : Mongo)

/-- What is left of a patch: its identity and the protected fields are taken out. -/
def patchFields (doc : Model.Document) : Model.Document := doc.stripProtectedFields.filter fun x => x.1 ≠ text "id"

/-- An update of fields is not applied to a record that does not allow it. -/
def patchFilter (fields : Model.Document) (precond : Storage.Filter) : Storage.Filter :=
  { precond with other := fun doc => precond.other doc && (setFields doc.data fields).isSome }

def setRecord (now : Int64) (fields : Model.Document) (doc : StoredDoc) : StoredDoc :=
  { doc with data := (setFields doc.data fields).getD doc.data, updatedAt := now }

def patchRecord (now : Int64) (fields : Model.Document) (precond : Storage.Filter) : Program (Except WriteError Unit) :=
  if !updatable fields then .done (.error .refused)
  else .access (.updateOne (patchFilter fields precond) (setRecord now fields)) fun row =>
    match (live row).filter precond.matches with
    | some doc =>
      .done (if (setFields doc.data fields).isNone then .error .refused
        else if (increment doc).isSome then .ok () else .error (.store .overflow))
    | none => .access .read fun row => .done (.error (.store (missingOrFailed row)))

def patchDocument (now : Int64) (database : Bytes) (doc : Option Model.Document) (pred : List Model.Filter) :
    Program (Except WriteError Model.Document) :=
  match doc with
  | none => .done (.error .documentNil)
  | some doc =>
    if doc.getCollection = [] then .done (.error .collectionRequired)
    else if doc.getID = [] then .done (.error .idRequired)
    else (patchRecord now (patchFields doc) (writeFilter mongo database (writePath doc) pred)).bind fun result =>
      match result with
      | .error e => .done (.error e)
      | .ok () => get.bind fun updated => .done ((updated.map flattenStorageDocument).mapError .store)

section Records

variable {now : Int64} {fields : Model.Document} {precond : Storage.Filter}

theorem patchFilter_matches {old : StoredDoc} :
    (patchFilter fields precond).matches old = true ↔ precond.matches old = true ∧ (setFields old.data fields).isSome := by
  simp only [patchFilter, Storage.Filter.matches, Bool.and_eq_true, and_assoc]

theorem increment_some {old next : StoredDoc} (h : increment old = some next) :
    next = { old with version := old.version + 1 } := by
  unfold increment at h
  split at h
  · cases h
  · exact (some.inj h).symm

theorem patchRecord_writes {trace : Trace} (h : (patchRecord now fields precond).Traces trace (.ok ())) :
    ∃ row old merged, trace.writes = [(row, { old with version := old.version + 1, updatedAt := now, data := merged })] ∧
      live row = some old ∧ setFields old.data fields = some merged := by
  unfold patchRecord at h
  split at h
  · cases h
  cases h with
  | access row h =>
    dsimp only at h
    split at h
    · rename_i old hMatch
      obtain ⟨rfl, hResult⟩ := h.of_done
      obtain ⟨hLive, hFilter⟩ := filter_eq_some_iff.mp hMatch
      split at hResult
      · cases hResult
      rename_i hSet
      split at hResult
      · rename_i hIncrement
        have hSome : (setFields old.data fields).isSome = true := by simpa [isSome_iff_ne_none] using hSet
        obtain ⟨merged, hMerged⟩ := isSome_iff_exists.mp hSome
        obtain ⟨next, hNext⟩ := isSome_iff_exists.mp hIncrement
        have hVersion := increment_some hNext
        have hFound : (live row).filter (patchFilter fields precond).matches = some old :=
          filter_eq_some_iff.mpr ⟨hLive, patchFilter_matches.mpr ⟨hFilter, by rw [hMerged]; rfl⟩⟩
        have hWrite : (Access.updateOne (patchFilter fields precond) (setRecord now fields)).write row =
            some { old with version := old.version + 1, updatedAt := now, data := merged } := by
          simp [Access.write, hFound, hNext, hVersion, setRecord, hMerged]
        exact ⟨row, old, merged, writes_some hWrite [], hLive, hMerged⟩
      · cases hResult
    · cases h with
      | access row h => cases h

end Records

section Runs

variable {mongo} {now : Int64} {database : Bytes} {doc : Model.Document} {pred : List Model.Filter}

theorem patchDocument_writes {trace : Trace} {out : Model.Document}
    (h : (patchDocument mongo now database (some doc) pred).Traces trace (.ok out)) :
    ∃ row old merged, trace.writes = [(row, { old with version := old.version + 1, updatedAt := now, data := merged })] ∧
      live row = some old ∧ setFields old.data (patchFields doc) = some merged := by
  unfold patchDocument at h
  dsimp only at h
  split at h
  · cases h
  split at h
  · cases h
  obtain ⟨before, result, after, hPatch, hAfter, rfl⟩ := h.bind
  cases result with
  | error e => cases hAfter
  | ok =>
    obtain ⟨row, old, merged, hWrites, hLive, hMerged⟩ := patchRecord_writes hPatch
    cases hAfter with
    | access last hAfter =>
      obtain ⟨rfl, -⟩ := hAfter.of_done
      refine ⟨row, old, merged, ?_, hLive, hMerged⟩
      rw [writes_append, hWrites]
      rfl

/-- The write of a run merged the fields of a patch into the data of a live record, and only counted its version and
set its time apart from that. -/
def Merged (now : Int64) (doc : Model.Document) (trace : Trace) : Prop :=
  ∃ row old merged, trace.writes = [(row, { old with version := old.version + 1, updatedAt := now, data := merged })] ∧
    live row = some old ∧ ShallowMerge old.data (patchFields doc) merged

end Runs

section Notes

def nestedStore : Store := fun path =>
  if path = text "notes/a" then
    some ⟨text "db", text "notes/a", text "notes", 0, 0, 3,
      [(text "a", .object [(text "b", .int 1), (text "c", .int 2)])], false⟩
  else none

/-- The run of a patch of one field of the note, while nobody else writes. -/
def patchRun (field : Bytes × Value) : Trace × Except WriteError Model.Document × Session :=
  (patchDocument scalarMongo 7 (text "db") (some (field :: noteDoc)) []).execute quiet (writePath (field :: noteDoc))
    ⟨nestedStore, 0⟩

end Notes

end Syntrix.Core
