import Syntrix.Gateway.Documents
import Syntrix.Storage.PushChange

/-! # Push

A batch of changes is validated as a whole and then applied one change after another, each against the
record it finds. The changes that lose to other writers are answered as conflicts, which a second check
compares with the batch.
-/
namespace Syntrix.Core

open Lib Model Index Syntrix.Storage Gateway List

/-- A change as it was sent. The action is missing when it is none of the three. -/
structure ReplicationPushChange where
  action : Option PushAction
  doc : Option StoredDoc
  baseVersion : Option Int64

structure ReplicationPushRequest where
  collection : Bytes
  changes : List ReplicationPushChange

structure ReplicationPushConflict where
  changeIndex : Nat
  id : Bytes
  reason : ConflictReason
  current : Row

inductive PushError where
  | notConcrete
  | noChanges
  | invalidAction (change : Nat)
  | negativeVersion (change : Nat)
  | invalidScope (change : Nat)
  | invalidPath (change : Nat)
  | inconsistentID (change : Nat)
  | invalidData (change : Nat)
  | notEncodable
  | store (e : StoreError)
  | conflictIndex
  | missingDocument
  | identityMismatch
  | currentMismatch
  | inconsistentState
deriving DecidableEq

/-- The parts of the wire format that only bound sizes and types. -/
structure PushWire where
  marshals : Model.Document → Bool
  encodesRequest : Bytes → ReplicationPushRequest → Bool
  encodesResponse : List ReplicationPushConflict → Bool

section Request

variable (config : ValidationConfig) (wire : PushWire)

def checkDocumentPath (path : Bytes) : Bool :=
  checkPath config path && decide ((path.splitOn slash).length % 2 = 0) && decide (2 ≤ (path.splitOn slash).length) &&
    !(path.splitOn slash).zipIdx.any fun x => decide (x.2 % 2 = 1 ∧ config.maxIDLength < x.1.length)

def pushDocumentPath (collection : Bytes) (doc : StoredDoc) : Bytes :=
  if doc.fullpath ≠ [] then doc.fullpath
  else match doc.data.lookup (text "id") with
  | some (.string id) => collection ++ [slash] ++ id
  | _ => collection ++ [slash]

def isString (s : Bytes) : Value → Bool
  | .string t => decide (t = s)
  | _ => false

def validateChange (database collection : Bytes) (i : Nat) (change : ReplicationPushChange) : Except PushError Unit :=
  if change.action.isNone then .error (.invalidAction i)
  else if change.baseVersion.any fun v => decide (v < 0) then .error (.negativeVersion i)
  else match change.doc with
  | none => .error (.invalidScope i)
  | some doc =>
    if (doc.database ≠ [] ∧ doc.database ≠ database) ∨ (doc.collection ≠ [] ∧ doc.collection ≠ collection) ∨
        (doc.deleted ∧ change.action ≠ some .delete) then .error (.invalidScope i)
    else
      let path := pushDocumentPath collection doc
      let docid := Strings.trimPrefix path (collection ++ [slash])
      if !checkDocumentPath config path || !(collection ++ [slash]).isPrefixOf path || docid.contains slash then
        .error (.invalidPath i)
      else if (doc.data.lookup (text "id")).any fun id => !isString docid id then .error (.inconsistentID i)
      else if !wire.marshals doc.data then .error (.invalidData i)
      else match normalizeValue (.object doc.data) with
      | .error _ => .error (.invalidData i)
      | .ok _ => .ok ()

def validateChanges (database collection : Bytes) : Nat → List ReplicationPushChange → Except PushError Unit
  | _, [] => .ok ()
  | i, change :: rest =>
    (validateChange config wire database collection i change).bind fun _ => validateChanges database collection (i + 1) rest

def validatePushRequest (database : Bytes) (req : ReplicationPushRequest) : Except PushError Unit :=
  if database = [] ∨ !utf8Valid database ∨ database.contains 0 ∨ !checkCollectionPath config req.collection then
    .error .notConcrete
  else if req.changes = [] then .error .noChanges
  else (validateChanges config wire database req.collection 0 req.changes).bind fun _ =>
    if wire.encodesRequest database req then .ok () else .error .notEncodable

end Request

section Response

def reasonHolds (change : ReplicationPushChange) (current : Row) : ConflictReason → Bool
  | .missing => current.isNone
  | .tombstoned => current.any StoredDoc.deleted
  | .versionMismatch => (live current).any fun doc => change.baseVersion.any fun v => decide (doc.version ≠ v)
  | .alreadyExists => (live current).isSome &&
      (decide (change.action = some .create) || decide (change.action = some .update) && change.baseVersion.isNone)
  | .preconditionFailed => (live current).any fun doc => change.baseVersion.all fun v => decide (doc.version = v)

def currentMatches (database collection id : Bytes) (doc : StoredDoc) : Bool :=
  match logicalDocumentID doc with
  | .error _ => false
  | .ok logicalID => decide (doc.database = database) && decide (doc.collection = collection) &&
      decide (logicalID = id) && !decide (doc.version < 0)

def validateConflict (database : Bytes) (req : ReplicationPushRequest) (c : ReplicationPushConflict) :
    Except PushError Unit :=
  match req.changes[c.changeIndex]? with
  | none => .error .conflictIndex
  | some change =>
    match change.doc with
    | none => .error .missingDocument
    | some doc =>
      if c.id = [] ∨ pushDocumentPath req.collection doc ≠ req.collection ++ [slash] ++ c.id then .error .identityMismatch
      else if c.current.any fun doc => !currentMatches database req.collection c.id doc then .error .currentMismatch
      else if !reasonHolds change c.current c.reason || c.id.contains slash || c.id.contains 0 then
        .error .inconsistentState
      else .ok ()

def validateConflicts (database : Bytes) (req : ReplicationPushRequest) :
    Int → List ReplicationPushConflict → Except PushError Unit
  | _, [] => .ok ()
  | previous, c :: rest =>
    if (c.changeIndex : Int) ≤ previous ∨ req.changes.length ≤ c.changeIndex then .error .conflictIndex
    else (validateConflict database req c).bind fun _ => validateConflicts database req c.changeIndex rest

def validatePushResponse (database : Bytes) (req : ReplicationPushRequest) (conflicts : List ReplicationPushConflict) :
    Except PushError Unit := validateConflicts database req (-1) conflicts

end Response

section Run

variable (config : ValidationConfig) (wire : PushWire) (others : Nat → Store → Store) (now : Nat → Int64)

/-- A change as the store is asked to make it. An action that is none of the three would be an update. -/
def ReplicationPushChange.plan (change : ReplicationPushChange) (collection path : Bytes) (data : Model.Document) : PushChange :=
  ⟨change.action.getD .update, change.baseVersion, collection, Strings.trimPrefix path (collection ++ [slash]), data⟩

def lastSegment (path : Bytes) : Bytes := (path.reverse.takeWhile (· ≠ slash)).reverse

def pushConflict (index : Nat) (path : Bytes) (conflict : ConflictReason × Row) : ReplicationPushConflict :=
  ⟨index, lastSegment path, conflict.1, conflict.2⟩

/-- Apply the changes in turn, with the runs of the changes that were tried. Validated changes have a
document with data that can be normalized. -/
def pushLoop (database collection : Bytes) :
    Nat → List ReplicationPushChange → Session → List Trace × Except PushError (List ReplicationPushConflict)
  | _, [], _ => ([], .ok [])
  | index, change :: rest, s =>
    match change.doc with
    | none => ([], .error .missingDocument)
    | some doc =>
      let path := pushDocumentPath collection doc
      match normalizeValue (.object doc.data) with
      | .ok (.object data) =>
        let run := (pushChange (now index) database (change.plan collection path data)).execute others path s
        match run.2.1 with
        | .error e => ([run.1], .error (.store e))
        | .ok conflict =>
          let later := pushLoop database collection (index + 1) rest run.2.2
          (run.1 :: later.1, later.2.map (conflict.toList.map (pushConflict index path) ++ ·))
      | _ => ([], .error (.invalidData index))

def push (store : Store) (database : Bytes) (req : ReplicationPushRequest) :
    List Trace × Except PushError (List ReplicationPushConflict) :=
  match validatePushRequest config wire database req with
  | .error e => ([], .error e)
  | .ok () =>
    let run := pushLoop others now database req.collection 0 req.changes ⟨store, 0⟩
    (run.1, run.2.bind fun conflicts => (validatePushResponse database req conflicts).bind fun _ =>
      if wire.encodesResponse conflicts then .ok conflicts else .error .notEncodable)

end Run

inductive Accounts (collection : Bytes) :
    Nat → List ReplicationPushChange → List Trace → List ReplicationPushConflict → Prop
  | nil (index : Nat) : Accounts collection index [] [] []
  | cons {index : Nat} {change : ReplicationPushChange} {doc : StoredDoc} {data : Model.Document} {trace : Trace}
      {outcome : Option (ConflictReason × Row)} {rest : List ReplicationPushChange} {traces : List Trace}
      {conflicts : List ReplicationPushConflict} : change.doc = some doc →
      Accounted (change.plan collection (pushDocumentPath collection doc) data) trace outcome →
      Accounts collection (index + 1) rest traces conflicts →
      Accounts collection index (change :: rest) (trace :: traces)
        (outcome.toList.map (pushConflict index (pushDocumentPath collection doc)) ++ conflicts)

section Results

variable {config : ValidationConfig} {wire : PushWire} {others : Nat → Store → Store} {now : Nat → Int64}
variable {database collection : Bytes} {req : ReplicationPushRequest}

variable {conflicts : List ReplicationPushConflict} {changes : List ReplicationPushChange} {traces : List Trace}

theorem pushLoop_accounts {index : Nat} {s : Session}
    (h : pushLoop others now database collection index changes s = (traces, .ok conflicts)) :
    Accounts collection index changes traces conflicts := by
  induction changes generalizing index s traces conflicts with
  | nil =>
    cases h
    exact .nil index
  | cons change rest ih =>
    simp only [pushLoop] at h
    split at h
    · cases h
    rename_i doc hDoc
    split at h
    · rename_i data hData
      split at h
      · cases h
      rename_i outcome hOutcome
      obtain ⟨rfl, hConflicts⟩ := Prod.mk.inj h
      obtain ⟨later, hLater, rfl⟩ := map_eq_ok hConflicts
      have hTraces := Program.execute_traces others (pushDocumentPath collection doc)
        (pushChange (now index) database (change.plan collection (pushDocumentPath collection doc) data)) s
      rw [hOutcome] at hTraces
      exact .cons hDoc (pushChange_accounted hTraces) (ih (Prod.ext rfl hLater))
    · cases h

theorem Accounts.increasing {index : Nat} (h : Accounts collection index changes traces conflicts) :
    (conflicts.map ReplicationPushConflict.changeIndex).Pairwise (· < ·) ∧
      ∀ c ∈ conflicts, index ≤ c.changeIndex ∧ c.changeIndex < index + changes.length := by
  induction h with
  | nil => exact ⟨.nil, by simp⟩
  | @cons index change doc data trace outcome rest traces conflicts hDoc hAccounted hLater ih =>
    obtain ⟨hIncreasing, hBounds⟩ := ih
    have hWithin : ∀ c ∈ conflicts, index + 1 ≤ c.changeIndex ∧ c.changeIndex < index + (change :: rest).length := by
      intro c hc
      obtain ⟨hLow, hHigh⟩ := hBounds c hc
      rw [length_cons]
      omega
    cases outcome with
    | none =>
      refine ⟨hIncreasing, fun c hc => ?_⟩
      obtain ⟨hLow, hHigh⟩ := hWithin c hc
      exact ⟨by omega, hHigh⟩
    | some conflict =>
      refine ⟨.cons (fun i hi => ?_) hIncreasing, fun c hc => ?_⟩
      · obtain ⟨c, hc, rfl⟩ := List.mem_map.mp hi
        exact (hWithin c hc).1
      · obtain rfl | hc := mem_cons.mp hc
        · simp [pushConflict]
        · obtain ⟨hLow, hHigh⟩ := hWithin c hc
          exact ⟨by omega, hHigh⟩

def Settled (conflicts : List ReplicationPushConflict) (index : Nat) (change : ReplicationPushChange) (trace : Trace) : Prop :=
  (conflicts.map ReplicationPushConflict.changeIndex).count index = 1 ∧ trace.committed = [] ∨
    index ∉ conflicts.map ReplicationPushConflict.changeIndex ∧ (trace.committed.length = 1 ∨
      trace.committed = [] ∧ change.action = some .delete ∧ change.baseVersion = none ∧
        ∃ row, (Access.read, row) ∈ trace ∧ live row = none)

theorem Accounts.settled {index : Nat} (h : Accounts collection index changes traces conflicts) {i : Nat}
    {change : ReplicationPushChange} (hChange : changes[i]? = some change) :
    ∃ trace, traces[i]? = some trace ∧ Settled conflicts (index + i) change trace := by
  induction h generalizing i with
  | nil => cases hChange
  | @cons index head doc data trace outcome rest traces conflicts hDoc hAccounted hLater ih =>
    have hFresh : index ∉ conflicts.map ReplicationPushConflict.changeIndex := by
      intro hMem
      obtain ⟨c, hc, hIndex⟩ := List.mem_map.mp hMem
      have hLow := (hLater.increasing.2 c hc).1
      omega
    cases i with
    | zero =>
      cases hChange
      refine ⟨trace, rfl, ?_⟩
      cases hAccounted with
      | conflict creating row hNone hRead hCreating =>
        refine .inl ⟨?_, hNone⟩
        simp [pushConflict, count_eq_zero.mpr hFresh]
      | written hOne => exact .inr ⟨by simpa using hFresh, .inl hOne⟩
      | absent row hNone hRead hLive hAction hBase =>
        refine .inr ⟨by simpa using hFresh, .inr ⟨hNone, ?_, hBase, row, hRead, hLive⟩⟩
        cases hSent : change.action with
        | none => simp [ReplicationPushChange.plan, hSent] at hAction
        | some action => simpa [ReplicationPushChange.plan, hSent] using hAction
    | succ i =>
      obtain ⟨trace', hTrace, hSettled⟩ := ih hChange
      refine ⟨trace', hTrace, ?_⟩
      have hShift : index + 1 + i = index + (i + 1) := by omega
      rw [hShift] at hSettled
      -- A conflict of the first change has another index.
      cases outcome with
      | none => exact hSettled
      | some conflict =>
        have hOther : (pushConflict index (pushDocumentPath collection doc) conflict).changeIndex ≠ index + (i + 1) := by
          simp only [pushConflict]
          omega
        simp only [Settled, Option.toList_some, map_cons, map_nil, singleton_append,
          count_cons_of_ne hOther, mem_cons, hOther.symm, false_or]
        exact hSettled

/-- Every change of a batch that was answered is accounted for: it is a conflict and was not written, or it
was written once, or it deletes without a version what is not there. The response passes its check. -/
theorem push_accounts_for_changes {store : Store} {traces : List Trace} {conflicts : List ReplicationPushConflict}
    (h : push config wire others now store database req = (traces, .ok conflicts)) :
    (∀ i change, req.changes[i]? = some change → ∃ trace, traces[i]? = some trace ∧ Settled conflicts i change trace) ∧
      (conflicts.map ReplicationPushConflict.changeIndex).Pairwise (· < ·) ∧
      validatePushResponse database req conflicts = .ok () := by
  unfold push at h
  split at h
  · cases h
  obtain ⟨rfl, hResult⟩ := Prod.mk.inj h
  obtain ⟨found, hFound, hResult⟩ := bind_eq_ok hResult
  obtain ⟨_, hValid, hResult⟩ := bind_eq_ok hResult
  split at hResult
  · cases hResult
    have hAccounts := pushLoop_accounts (Prod.ext rfl hFound)
    refine ⟨fun i change hChange => ?_, hAccounts.increasing.1, hValid⟩
    obtain ⟨trace, hTrace, hSettled⟩ := hAccounts.settled hChange
    rw [Nat.zero_add] at hSettled
    exact ⟨trace, hTrace, hSettled⟩
  · cases hResult

end Results

def noteRecord (id title : Bytes) (version : Int64) : StoredDoc :=
  ⟨text "db", text "notes/" ++ id, text "notes", 0, 0, version, [(text "title", .string title)], false⟩

def noteChange (action : PushAction) (id : Bytes) (base : Option Int64) : ReplicationPushChange :=
  ⟨some action, some ⟨[], text "notes/" ++ id, [], 0, 0, 0, [(text "title", .string (text "t"))], false⟩, base⟩

def noteBatch : ReplicationPushRequest :=
  ⟨text "notes", [noteChange .update (text "a") (some 1), noteChange .create (text "b") none,
    noteChange .delete (text "c") none]⟩

def noteStore : Store := Function.update (fun _ => none) (text "notes/a") (some (noteRecord (text "a") (text "t") 1))

def noteRace (clock : Nat) (store : Store) : Store :=
  if clock = 1 then Function.update store (text "notes/a") (some (noteRecord (text "a") (text "u") 2)) else store

def openWire : PushWire := ⟨fun _ => true, fun _ _ => true, fun _ => true⟩

/-- An update that loses a race, a creation and a delete of what is not there. -/
theorem push_accounts_for_changes_race :
    ∃ traces conflicts, push ⟨1024, 128⟩ openWire noteRace (fun _ => 0) noteStore (text "db") noteBatch =
        (traces, .ok conflicts) ∧ traces.map (fun trace => trace.committed.length) = [0, 1, 0] ∧
      (conflicts.map fun c => (c.changeIndex, c.reason)) = [(0, .versionMismatch)] ∧
      ∀ i change, noteBatch.changes[i]? = some change → ∃ trace, traces[i]? = some trace ∧ Settled conflicts i change trace := by
  have hRun : (push ⟨1024, 128⟩ openWire noteRace (fun _ => 0) noteStore (text "db") noteBatch).2.toOption.map (fun conflicts =>
      (conflicts.map fun c => (c.changeIndex, c.reason))) = some [(0, .versionMismatch)] := by decide +kernel
  obtain ⟨conflicts, hOk, hConflicts⟩ := Option.map_eq_some_iff.mp hRun
  have hPush : push ⟨1024, 128⟩ openWire noteRace (fun _ => 0) noteStore (text "db") noteBatch = (_, .ok conflicts) :=
    Prod.ext rfl (toOption_eq_some hOk)
  exact ⟨_, conflicts, hPush, by decide +kernel, hConflicts, (push_accounts_for_changes hPush).1⟩

end Syntrix.Core
