import Syntrix.Gateway.Documents
import Syntrix.Storage.Preconditions
import Syntrix.Storage.PushChange

/-! # Replacing a document under a precondition

A replacement reads the document first. When it is there the record is updated under the precondition,
otherwise a new one is created without it. Other clients may act before every access, so what the first
read finds decides which of the two is tried, and nothing more.
-/
namespace Syntrix.Core

open Lib Model Index Syntrix.Storage Gateway

inductive WriteError where
  | documentNil
  | collectionRequired
  | idRequired
  /-- The database refuses an update of fields. -/
  | refused
  | store (e : StoreError)
deriving DecidableEq

/-- What the database gives: the key of a record and the meaning of its operators. -/
structure Mongo where
  calculateDatabase : Bytes → Bytes → Bytes
  holds : StoredDoc → Bytes → MongoOp → Value → Bool

variable (mongo : Mongo)

def writeFilter (database fullpath : Bytes) (pred : List Model.Filter) : Storage.Filter where
  version := none
  other doc := (writeSelector pred (mongo.calculateDatabase database fullpath) database).toList.all
    fun x => x.2.matches mongo.holds doc x.1

def get : Program (Except StoreError StoredDoc) :=
  .access .read fun row => .done (match live row with
    | some doc => .ok doc
    | none => .error .notFound)

def writePath (doc : Model.Document) : Bytes := doc.getCollection ++ [slash] ++ doc.getID

/-- Replace a document, or create it when it is not there. -/
def replaceDocument (now : Int64) (database : Bytes) (doc : Option Model.Document) (pred : List Model.Filter) :
    Program (Except WriteError Model.Document) :=
  match doc with
  | none => .done (.error .documentNil)
  | some doc =>
    if doc.getCollection = [] then .done (.error .collectionRequired)
    else if doc.getID = [] then .done (.error .idRequired)
    else get.bind fun found =>
      match found with
      | .error .notFound =>
        let storedDoc := newStoredDoc database doc.getCollection doc.getID doc.stripProtectedFields now
        (create storedDoc).bind fun result =>
          .done ((result.map fun _ => flattenStorageDocument storedDoc).mapError .store)
      | .error e => .done (.error (.store e))
      | .ok _ =>
        (update now doc.stripProtectedFields (writeFilter mongo database (writePath doc) pred)).bind fun result =>
          match result with
          | .error e => .done (.error (.store e))
          | .ok () => get.bind fun updated => .done ((updated.map flattenStorageDocument).mapError .store)

section Runs

variable {mongo} {now : Int64} {database : Bytes} {doc : Model.Document} {pred : List Model.Filter}

/-- The two ways a replacement succeeds, by what its first access reads. -/
inductive Replaced (mongo : Mongo) (now : Int64) (database : Bytes) (doc : Model.Document) (pred : List Model.Filter)
    (found : Row) : Trace → Prop
  | created {trace : Trace} : live found = none →
      (create (newStoredDoc database doc.getCollection doc.getID doc.stripProtectedFields now)).Traces trace (.ok ()) →
      Replaced mongo now database doc pred found ((.read, found) :: trace)
  | updated {trace : Trace} (last : Row) : (live found).isSome →
      (update now doc.stripProtectedFields (writeFilter mongo database (writePath doc) pred)).Traces trace (.ok ()) →
      Replaced mongo now database doc pred found ((.read, found) :: (trace ++ [(.read, last)]))

theorem replaceDocument_traces {trace : Trace} {out : Model.Document}
    (h : (replaceDocument mongo now database (some doc) pred).Traces trace (.ok out)) :
    ∃ found rest, trace = (.read, found) :: rest ∧ Replaced mongo now database doc pred found trace := by
  unfold replaceDocument at h
  dsimp only at h
  split at h
  · cases h
  split at h
  · cases h
  cases h with
  | @access _ _ rest _ found h =>
    refine ⟨found, rest, rfl, ?_⟩
    cases hLive : live found with
    | none =>
      simp only [hLive, Program.bind] at h
      obtain ⟨before, result, after, hCreate, hAfter, rfl⟩ := h.bind
      obtain ⟨rfl, hResult⟩ := hAfter.of_done
      cases result with
      | error e => cases hResult
      | ok => exact .created hLive (by simpa using hCreate)
    | some old =>
      simp only [hLive, Program.bind] at h
      obtain ⟨before, result, after, hUpdate, hAfter, rfl⟩ := h.bind
      cases result with
      | error e => cases hAfter
      | ok =>
        cases hAfter with
        | access last hAfter =>
          obtain ⟨rfl, -⟩ := hAfter.of_done
          exact .updated last (by rw [hLive]; rfl) hUpdate

/-- The write of a run was applied to a live document that satisfies every filter. -/
def Honoured (mongo : Mongo) (pred : List Model.Filter) (trace : Trace) : Prop :=
  ∃ row old new, trace.writes = [(row, new)] ∧ live row = some old ∧ ∀ f ∈ pred, Satisfies mongo.holds f old

theorem writeFilter_matches {old : StoredDoc} (hMatches : (writeFilter mongo database (writePath doc) pred).matches old = true) :
    (writeSelector pred (mongo.calculateDatabase database (writePath doc)) database).Matches mongo.holds old := by
  have hAll := (Bool.and_eq_true_iff.mp hMatches).2
  intro key c hGet
  exact List.all_eq_true.mp hAll _ (KeyValue.mem_toList.mpr hGet)

theorem Replaced.honoured_iff (hSupported : ∀ f ∈ pred, (mapOp f.op).isSome) (hDistinct : (pred.map (·.field)).Nodup)
    (hReserved : ∀ f ∈ pred, f.field ≠ text "_id") {found : Row} {trace : Trace}
    (h : Replaced mongo now database doc pred found trace) : Honoured mongo pred trace ↔ (live found).isSome := by
  cases h with
  | created hMissing hCreate =>
    obtain ⟨row, hWrites, hDead⟩ := create_writes hCreate
    rw [hMissing]
    constructor
    · rintro ⟨row', old, new, hWrites', hLive, -⟩
      rw [writes_read, hWrites] at hWrites'
      cases hWrites'
      rw [hDead] at hLive
      cases hLive
    · rintro ⟨⟩
  | @updated trace last hFound hUpdate =>
    obtain ⟨row, old, new, hWrites, hLive, hMatches, -⟩ := updateMatching_writes hUpdate
    have hLast : Trace.writes ((.read, found) :: (trace ++ [(.read, last)])) = trace.writes := by
      rw [writes_read, writes_append]
      exact List.append_nil _
    constructor
    · exact fun _ => hFound
    · have hSame : ∀ f ∈ pred, ∀ g ∈ pred, f.field = g.field → f.op = g.op ∧ f.value = g.value := by
        intro f hf g hg hField
        obtain rfl := List.inj_on_of_nodup_map hDistinct hf hg hField
        exact ⟨rfl, rfl⟩
      intro _
      refine ⟨row, old, _, hLast.trans hWrites, hLive, fun f hf => ?_⟩
      exact (writeSelector_asks hSupported hReserved hSame f hf).satisfies (writeFilter_matches hMatches)

end Runs

/-- A replacement that succeeds honours its precondition exactly when its first read found the document: one that finds
none creates it, whatever the filters ask for. -/
theorem replaceDocument_honours_iff {now : Int64} {database : Bytes} {doc : Model.Document} {pred : List Model.Filter}
    (hSupported : ∀ f ∈ pred, (mapOp f.op).isSome) (hDistinct : (pred.map (·.field)).Nodup)
    (hReserved : ∀ f ∈ pred, f.field ≠ text "_id") (others : Nat → Store → Store) (s : Session) {out : Model.Document}
    (hOk : ((replaceDocument mongo now database (some doc) pred).execute others (writePath doc) s).2.1 = .ok out) :
    Honoured mongo pred ((replaceDocument mongo now database (some doc) pred).execute others (writePath doc) s).1 ↔
      (live (others s.clock s.store (writePath doc))).isSome := by
  have hTraces := (replaceDocument mongo now database (some doc) pred).execute_traces others (writePath doc) s
  rw [hOk] at hTraces
  obtain ⟨found, rest, hTrace, hReplaced⟩ := replaceDocument_traces hTraces
  rw [hReplaced.honoured_iff hSupported hDistinct hReserved, Program.execute_first hTrace]

section Records

/-- Records by their path, compared by the scalars selectors of writes name. -/
def scalarMongo : Mongo := ⟨fun database fullpath => database ++ [0x3A] ++ fullpath, recordHolds (text "db:notes/a")⟩

def noteDoc : Model.Document := [(text "id", .string (text "a")), (text "collection", .string (text "notes"))]

def versionedStore (stored : Bool) : Store :=
  fun path => if stored ∧ path = text "notes/a" then some ⟨text "db", text "notes/a", text "notes", 0, 0, 3, [], false⟩ else none

def quiet : Nat → Store → Store := fun _ store => store

/-- The run of a replacement that asks for the third version, while nobody else writes. -/
def noteRun (stored : Bool) : Trace × Except WriteError Model.Document × Session :=
  (replaceDocument scalarMongo 0 (text "db") (some noteDoc) [versionFilter .opEq 3]).execute quiet (writePath noteDoc)
    ⟨versionedStore stored, 0⟩

theorem noteRun_ok (stored : Bool) : ∃ out, (noteRun stored).2.1 = .ok out := by
  have hSome : ∀ stored, (noteRun stored).2.1.toOption.isSome = true := by decide +kernel
  obtain ⟨out, hOut⟩ := Option.isSome_iff_exists.mp (hSome stored)
  exact ⟨out, toOption_eq_some hOut⟩

theorem replaceDocument_honours_version : Honoured scalarMongo [versionFilter .opEq 3] (noteRun true).1 := by
  obtain ⟨out, hOut⟩ := noteRun_ok true
  refine (replaceDocument_honours_iff scalarMongo ?_ ?_ ?_ quiet ⟨versionedStore true, 0⟩ hOut).mpr ?_
  · simp [versionFilter, mapOp]
  · simp
  · simp [versionFilter, text]
  · decide

/-- A note that is not there is created under a precondition that no state of it satisfied. -/
theorem replaceDocument_ignores_precondition : ∃ out, (noteRun false).2.1 = .ok out ∧
    ¬ Honoured scalarMongo [versionFilter .opEq 3] (noteRun false).1 := by
  obtain ⟨out, hOut⟩ := noteRun_ok false
  refine ⟨out, hOut, ?_⟩
  rintro ⟨row, old, new, hWrites, hLive, -⟩
  have hAll : ((noteRun false).1.writes.all fun x => (live x.1).isNone) = true := by decide +kernel
  rw [hWrites] at hAll
  simp [hLive] at hAll

end Records

end Syntrix.Core
