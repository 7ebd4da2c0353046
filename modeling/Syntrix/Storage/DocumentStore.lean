import Syntrix.Index.Projection
import Syntrix.Model.Document

/-! # The document store

The operations on the record of one document path. Each access to the record is atomic; an operation is
a short program of accesses, between which other clients may change the record. A deleted document
leaves a tombstone, which a creation replaces.
-/
namespace Syntrix.Storage

open Lib Model Index

abbrev Row := Option StoredDoc

def live (row : Row) : Option StoredDoc := row.filter fun doc => !doc.deleted

inductive StoreError where
  | documentExists
  | notFound
  | preconditionFailed
  | overflow
deriving DecidableEq

def newStoredDoc (database collection docid : Bytes) (data : Document) (now : Int64) : StoredDoc where
  database := database
  fullpath := collection ++ [slash] ++ docid
  collection := collection
  updatedAt := now
  createdAt := now
  version := 1
  data := (data.setID docid).stripProtectedFields
  deleted := false

structure Filter where
  version : Option Int64
  other : StoredDoc → Bool

def Filter.matches (filter : Filter) (doc : StoredDoc) : Bool :=
  filter.version.all (fun v => decide (doc.version = v)) && filter.other doc

inductive Access where
  | read
  | insertOne (doc : StoredDoc)
  | replaceTombstone (doc : StoredDoc)
  | updateOne (filter : Filter) (change : StoredDoc → StoredDoc)

/-- The version is incremented in place; an increment past the greatest version is an error. -/
def increment (doc : StoredDoc) : Option StoredDoc :=
  if doc.version = Int64.maxValue then none else some { doc with version := doc.version + 1 }

def Access.write (row : Row) : Access → Option StoredDoc
  | .read => none
  | .insertOne doc => if row.isNone then some doc else none
  | .replaceTombstone doc => if row.any StoredDoc.deleted then some doc else none
  | .updateOne filter change => ((live row).filter filter.matches).bind fun doc => (increment doc).map change

/-- A program of accesses; each one sees the record as it was before it. -/
inductive Program (α : Type) where
  | done (result : α)
  | access (a : Access) (next : Row → Program α)

section Operations

variable (now : Int64)

def create (doc : StoredDoc) : Program (Except StoreError Unit) :=
  let doc := { doc with deleted := false }
  .access (.insertOne doc) fun row =>
    if row.isNone then .done (.ok ())
    else .access .read fun row =>
      if row.any StoredDoc.deleted then
        .access (.replaceTombstone doc) fun row =>
          .done (if row.any StoredDoc.deleted then .ok () else .error .documentExists)
      else .done (.error .documentExists)

/-- An update of a live record that matches. When none does, the record is counted. -/
def updateMatching (filter : Filter) (change : StoredDoc → StoredDoc) (missing : Row → StoreError) :
    Program (Except StoreError Unit) :=
  .access (.updateOne filter change) fun row =>
    match (live row).filter filter.matches with
    | some doc => .done (if (increment doc).isSome then .ok () else .error .overflow)
    | none => .access .read fun row => .done (.error (missing row))

def missingOrFailed (row : Row) : StoreError := if row.isNone then .notFound else .preconditionFailed

def update (data : Document) (precond : Filter) : Program (Except StoreError Unit) :=
  updateMatching precond (fun doc => { doc with data := data, updatedAt := now }) missingOrFailed

def patch (assign : Document → Bytes → Value → Document) (data : Document) (precond : Filter) :
    Program (Except StoreError Unit) :=
  updateMatching precond
    (fun doc => { doc with data := data.foldl (fun d x => assign d x.1 x.2) doc.data, updatedAt := now }) missingOrFailed

def delete (precond : Filter) : Program (Except StoreError Unit) :=
  updateMatching precond (fun doc => { doc with deleted := true, data := [], updatedAt := now })
    fun row => if (live row).isNone then .notFound else .preconditionFailed

inductive PushAction where
  | create
  | update
  | delete
deriving DecidableEq

inductive ConflictReason where
  | missing
  | tombstoned
  | alreadyExists
  | versionMismatch
  | preconditionFailed
deriving DecidableEq

structure PushChange where
  action : PushAction
  baseVersion : Option Int64
  collection : Bytes
  docid : Bytes
  data : Document

def conflictReason (change : PushChange) (current : Row) (creating : Bool) : ConflictReason :=
  match current with
  | none => .missing
  | some doc =>
    if doc.deleted then .tombstoned
    else if creating then .alreadyExists
    else if change.baseVersion.any fun v => decide (doc.version ≠ v) then .versionMismatch
    else .preconditionFailed

def Program.bind {α β : Type} (f : α → Program β) : Program α → Program β
  | .done a => f a
  | .access a next => .access a fun row => (next row).bind f

def baseFilter (change : PushChange) : Filter := ⟨change.baseVersion, fun _ => true⟩

def writePushChange (database : Bytes) (change : PushChange) (creating : Bool) : Program (Except StoreError Unit) :=
  if creating then create (newStoredDoc database change.collection change.docid change.data now)
  else if change.action = .delete then delete now (baseFilter change)
  else update now change.data.stripProtectedFields (baseFilter change)

/-- One change of a push: the conflict it ends in, if any, or an error that ends the push. -/
def pushChange (database : Bytes) (change : PushChange) : Program (Except StoreError (Option (ConflictReason × Row))) :=
  .access .read fun current =>
    let missing := (live current).isNone
    if change.action = .create ∧ !missing then .done (.ok (some (conflictReason change current true, current)))
    else if change.action ≠ .create ∧ change.baseVersion.isSome ∧ missing then
      .done (.ok (some (conflictReason change current false, current)))
    else if change.action = .delete ∧ change.baseVersion.isNone ∧ missing then .done (.ok none)
    else if !missing ∧ change.baseVersion.any (fun v => decide (current.map StoredDoc.version ≠ some v)) then
      .done (.ok (some (conflictReason change current false, current)))
    else
      let creating := missing && decide (change.action ≠ .delete)
      (writePushChange now database change creating).bind fun result =>
        match result with
        | .ok () => .done (.ok none)
        | .error e =>
          if e ≠ .preconditionFailed ∧ e ≠ .notFound ∧ ¬ (creating ∧ e = .documentExists) then .done (.error e)
          else .access .read fun latest =>
            if change.action = .delete ∧ change.baseVersion.isNone ∧ (live latest).isNone then .done (.ok none)
            else .done (.ok (some (conflictReason change latest creating, latest)))

end Operations

theorem live_of_deleted {row : Row} (h : row.any StoredDoc.deleted = true) : live row = none := by
  cases row with
  | none => rfl
  | some old =>
    have hDeleted : old.deleted = true := h
    simp [live, hDeleted]

section Outcomes

variable {α β : Type}

/-- A program may write a document over a record, whatever the record was at its other accesses. -/
inductive Program.Commits : Program α → Row → StoredDoc → Prop
  | here {a : Access} {next : Row → Program α} {row : Row} {doc : StoredDoc} :
      a.write row = some doc → Commits (.access a next) row doc
  | later {a : Access} {next : Row → Program α} {row : Row} {doc : StoredDoc} (seen : Row) :
      Commits (next seen) row doc → Commits (.access a next) row doc

inductive Program.Returns : Program α → α → Prop
  | done (result : α) : Returns (.done result) result
  | access {a : Access} {next : Row → Program α} {result : α} (seen : Row) :
      Returns (next seen) result → Returns (.access a next) result

variable {doc : StoredDoc} {row : Row}

theorem Program.Commits.of_bind {p : Program α} {f : α → Program β}
    (h : (p.bind f).Commits row doc) : p.Commits row doc ∨ ∃ a, p.Returns a ∧ (f a).Commits row doc := by
  induction p with
  | done a => exact .inr ⟨a, .done a, h⟩
  | access a next ih =>
    cases h with
    | here hWrite => exact .inl (.here hWrite)
    | later seen hLater =>
      obtain hCommits | ⟨result, hReturns, hCommits⟩ := ih seen hLater
      · exact .inl (.later seen hCommits)
      · exact .inr ⟨result, .access seen hReturns, hCommits⟩

theorem not_commits_done {result : α} : ¬ (Program.done result).Commits row doc := by
  rintro ⟨⟩

theorem not_commits_read {f : Row → α} : ¬ (Program.access .read fun row => .done (f row)).Commits row doc := by
  rintro (hWrite | ⟨_, hLater⟩)
  · cases hWrite
  · exact not_commits_done hLater

theorem create_commits {new doc : StoredDoc} (h : (create new).Commits row doc) :
    live row = none ∧ doc = { new with deleted := false } := by
  rcases h with hWrite | ⟨seen, h⟩
  · simp only [Access.write] at hWrite
    split at hWrite
    · rename_i hNone
      cases hWrite
      rw [Option.isNone_iff_eq_none] at hNone
      rw [hNone]
      exact ⟨rfl, rfl⟩
    · cases hWrite
  dsimp only at h
  split at h
  · exact absurd h not_commits_done
  rcases h with hWrite | ⟨seen, h⟩
  · cases hWrite
  dsimp only at h
  split at h
  · rcases h with hWrite | ⟨seen, h⟩
    · simp only [Access.write] at hWrite
      split at hWrite
      · rename_i hDeleted
        cases hWrite
        exact ⟨live_of_deleted hDeleted, rfl⟩
      · cases hWrite
    · exact absurd h not_commits_done
  · exact absurd h not_commits_done

theorem updateMatching_commits {filter : Filter} {change : StoredDoc → StoredDoc} {missing : Row → StoreError} (h : (updateMatching filter change missing).Commits row doc) :
    (live row).isSome ∧ ∃ old, doc = change old := by
  rcases h with hWrite | ⟨seen, h⟩
  · obtain ⟨old, hMatch, hChange⟩ := Option.bind_eq_some_iff.mp hWrite
    obtain ⟨new, -, rfl⟩ := Option.map_eq_some_iff.mp hChange
    exact ⟨Option.isSome_iff_exists.mpr ⟨old, (Option.filter_eq_some_iff.mp hMatch).1⟩, new, rfl⟩
  · dsimp only at h
    split at h
    · exact absurd h not_commits_done
    · exact absurd h not_commits_read

end Outcomes

end Syntrix.Storage
