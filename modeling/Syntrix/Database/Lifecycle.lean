import Syntrix.Lib.Runs

/-! # Creating and removing databases

A quota is checked by one statement and the row inserted by another. A worker removes the databases that are
being deleted from a list it has read, their documents batch by batch and their rows last.
-/
namespace Syntrix.Database

open Lib List Function

namespace Creation

inductive Call where
  | counting (owner : String)
  | inserting (owner : String)
deriving DecidableEq

structure State where
  /-- The owners of the rows. -/
  rows : List String
  calls : List Call := []
  /-- The successful calls: their owners, with what these had right after. -/
  created : List (String × Nat) := []
deriving DecidableEq

inductive Action where
  | call (owner : String)
  | count (owner : String)
  | insert (owner : String) (ok : Bool)

variable (maxDatabasesPerUser : Nat)

def step (s : State) : Action → Option State
  | .call owner => some { s with calls := s.calls ++ [if 0 < maxDatabasesPerUser then .counting owner else .inserting owner] }
  | .count owner =>
    if .counting owner ∉ s.calls then none
    else if maxDatabasesPerUser ≤ s.rows.count owner then some { s with calls := s.calls.erase (.counting owner) }
    else some { s with calls := s.calls.erase (.counting owner) ++ [.inserting owner] }
  | .insert owner ok =>
    if .inserting owner ∉ s.calls then none
    else if ok then
      some ⟨owner :: s.rows, s.calls.erase (.inserting owner), s.created ++ [(owner, (owner :: s.rows).count owner)]⟩
    else some { s with calls := s.calls.erase (.inserting owner) }

/-- The owner is below the limit when the row is inserted. -/
def room (s : State) : Action → Prop
  | .insert owner true => .inserting owner ∈ s.calls → s.rows.count owner < maxDatabasesPerUser
  | _ => True

variable {maxDatabasesPerUser} {s s' : State} {a : Action}

theorem created_iff_room (hs : ∀ x ∈ s.created, x.2 ≤ maxDatabasesPerUser) (hStep : step maxDatabasesPerUser s a = some s') :
    (∀ x ∈ s'.created, x.2 ≤ maxDatabasesPerUser) ↔ room maxDatabasesPerUser s a := by
  unfold step at hStep
  repeat' split at hStep
  all_goals cases hStep
  all_goals simp only [forall_mem_append, forall_mem_singleton, count_cons_self]
  all_goals grind [room]

end Creation

namespace Deletion

inductive Status where
  | active
  | suspended
  | deleting
deriving DecidableEq

structure Document where
  id : Nat
  database : String
deriving DecidableEq

structure Config where
  batchSize : Nat
  maxBatchesPerCycle : Nat
  positive : 0 < batchSize ∧ 0 < maxBatchesPerCycle

/-- One call of `DeleteByDatabase`. -/
structure Pass where
  limit : Nat
  deleted : Nat := 0
  system : Bool := false
  found : Option (List Document) := none

inductive Worker where
  | idle
  | listed (databases : List String)
  /-- A batch, or the check after the batches. -/
  | deleting (database : String) (rest : List String) (batch : Option Nat) (pass : Pass)
  | finalizing (database : String) (rest : List String)

def Worker.databases : Worker → List String
  | .idle => []
  | .listed databases => databases
  | .deleting database rest _ _ | .finalizing database rest => database :: rest

structure State where
  status : String → Option Status
  data : List Document
  sys : List Document
  worker : Worker := .idle
  /-- The documents that were removed, with the status of their database at that moment. -/
  removed : List (Document × Option Status) := []
  /-- The databases whose row was removed, with their documents at that moment. -/
  finished : List (String × List Document) := []

inductive Action where
  | setStatus (database : String) (status : Status)
  | write (d : Document) (system : Bool)
  | list (databases : List String)
  | next
  | find (docs : List Document)
  | delete
  | fail
  | finalize

def State.collection (s : State) (system : Bool) : List Document := if system then s.sys else s.data

def State.of (s : State) (database : String) (system : Bool) : List Document :=
  (s.collection system).filter (·.database = database)

def State.remove (s : State) (docs : List Document) (system : Bool) (worker : Worker) : State where
  status := s.status
  data := if system then s.data else s.data.filter (· ∉ docs)
  sys := if system then s.sys.filter (· ∉ docs) else s.sys
  worker := worker
  removed := s.removed ++ ((s.collection system).filter (· ∈ docs)).map fun d => (d, s.status d.database)
  finished := s.finished

def ended (cfg : Config) (database : String) (rest : List String) (batch : Option Nat) (deleted : Nat) : Worker :=
  match batch with
  | some n =>
    if deleted < cfg.batchSize ∨ n + 1 = cfg.maxBatchesPerCycle then .deleting database rest none { limit := 1 }
    else .deleting database rest (some (n + 1)) { limit := cfg.batchSize }
  | none => if 0 < deleted then .listed rest else .finalizing database rest

/-- What comes after the documents that were found in a collection are deleted. -/
def continued (cfg : Config) (database : String) (rest : List String) (batch : Option Nat) (pass : Pass) (deleted : Nat) : Worker :=
  if pass.system = false ∧ pass.deleted + deleted < pass.limit then
    .deleting database rest batch { limit := pass.limit, deleted := pass.deleted + deleted, system := true }
  else ended cfg database rest batch (pass.deleted + deleted)

def step (cfg : Config) (s : State) : Action → Option State
  | .setStatus database status =>
    if (s.status database).isSome then some { s with status := update s.status database (some status) } else none
  | .write d system =>
    if system then some { s with sys := d :: s.sys } else some { s with data := d :: s.data }
  | .list databases =>
    match s.worker with
    | .idle =>
      if databases.Nodup ∧ databases.length ≤ 100 ∧ ∀ x ∈ databases, s.status x = some .deleting then
        some { s with worker := .listed databases }
      else none
    | _ => none
  | .next =>
    match s.worker with
    | .listed [] => some { s with worker := .idle }
    | .listed (database :: rest) => some { s with worker := .deleting database rest (some 0) { limit := cfg.batchSize } }
    | _ => none
  | .find docs =>
    match s.worker with
    | .deleting database rest batch ⟨limit, deleted, system, none⟩ =>
      if docs.Nodup ∧ docs ⊆ s.of database system ∧ docs.length = min (limit - deleted) (s.of database system).length then
        some { s with worker := .deleting database rest batch ⟨limit, deleted, system, some docs⟩ }
      else none
    | _ => none
  | .delete =>
    match s.worker with
    | .deleting database rest batch ⟨limit, deleted, system, some docs⟩ =>
      some (s.remove docs system
        (continued cfg database rest batch ⟨limit, deleted, system, none⟩ ((s.collection system).filter (· ∈ docs)).length))
    | _ => none
  | .fail =>
    match s.worker with
    | .deleting _ rest _ _ | .finalizing _ rest => some { s with worker := .listed rest }
    | _ => none
  | .finalize =>
    match s.worker with
    | .finalizing database rest =>
      some { s with
        status := update s.status database none
        worker := .listed rest
        finished := s.finished ++ [(database, s.of database false ++ s.of database true)] }
    | _ => none

/-- The database the worker checks for remaining documents, or whose row it is about to remove. -/
def Worker.closing : Worker → Option String
  | .deleting database _ none _ | .finalizing database _ => some database
  | _ => none

/-- No database leaves the status while the worker has it in its list, and none is written to from the last
check of its documents on. -/
def undisturbed (s : State) : Action → Bool
  | .setStatus database status => status = .deleting ∨ database ∉ s.worker.databases
  | .write d _ => s.worker.closing ≠ some d.database
  | _ => true

structure Sound (s : State) : Prop where
  held : ∀ x ∈ s.worker.databases, s.status x = some .deleting
  nodup : s.worker.databases.Nodup
  found : ∀ database rest batch pass docs, s.worker = .deleting database rest batch pass → pass.found = some docs →
    docs ⊆ s.of database pass.system
  checking : ∀ database rest pass, s.worker = .deleting database rest none pass → pass.limit = 1 ∧ pass.deleted = 0 ∧
    (pass.system = true → s.of database false = []) ∧ (pass.found = some [] → s.of database pass.system = [])
  finalizing : ∀ database rest, s.worker = .finalizing database rest → s.of database false = [] ∧ s.of database true = []
  removed : ∀ x ∈ s.removed, x.2 = some .deleting
  finished : ∀ x ∈ s.finished, x.2 = []

variable {cfg : Config} {s s' : State} {a : Action} {actions : List Action}

variable {system : Bool} {database : String}

theorem mem_of {d : Document} : d ∈ s.of database system ↔ d ∈ s.collection system ∧ d.database = database := by
  simp [State.of]

variable {docs : List Document}

theorem of_remove {other : Bool} {worker : Worker} (h : s.of database system = []) :
    (s.remove docs other worker).of database system = [] := by
  rw [eq_nil_iff_forall_not_mem] at h ⊢
  intro d hd
  rw [mem_of] at hd
  refine h d (mem_of.mpr ⟨?_, hd.2⟩)
  cases system <;> cases other <;> grind [State.collection, State.remove]

/-- The batch or the check goes on with what was deleted of the documents it had found. -/
theorem Sound.delete {rest : List String} {batch : Option Nat} {limit deleted : Nat} (hs : Sound s)
    (hWorker : s.worker = .deleting database rest batch ⟨limit, deleted, system, some docs⟩) :
    Sound (s.remove docs system
      (continued cfg database rest batch ⟨limit, deleted, system, none⟩ ((s.collection system).filter (· ∈ docs)).length)) := by
  obtain ⟨hHeld, hNodup, hFound, hChecking, hFinalizing, hRemoved, hFinished⟩ := hs
  have hDocs : docs ⊆ s.of database system := hFound _ _ _ _ _ hWorker rfl
  have hEmpty : batch = none → ((s.collection system).filter (· ∈ docs)).length = 0 → s.of database system = [] := by
    rintro rfl hNone
    obtain ⟨-, -, -, hNothing⟩ := hChecking _ _ _ hWorker
    cases docs with
    | nil => exact hNothing rfl
    | cons d docs =>
      have hd := mem_of.mp (hDocs mem_cons_self)
      simp only [length_eq_zero_iff, filter_eq_nil_iff, decide_eq_true_eq] at hNone
      exact absurd mem_cons_self (hNone d hd.1)
  unfold continued ended
  all_goals refine ⟨?_, ?_, ?_, ?_, ?_, ?_, hFinished⟩
  all_goals grind [Worker.databases, State.remove, of_remove, mem_of]

theorem Sound.step (hs : Sound s) (hAllowed : undisturbed s a) (hStep : step cfg s a = some s') : Sound s' := by
  obtain ⟨hHeld, hNodup, hFound, hChecking, hFinalizing, hRemoved, hFinished⟩ := id hs
  unfold Deletion.step at hStep
  repeat' split at hStep
  all_goals cases hStep
  all_goals try exact hs.delete ‹_›
  all_goals refine ⟨?_, ?_, ?_, ?_, ?_, ?_, ?_⟩
  all_goals first | assumption | grind [Worker.databases, Worker.closing, undisturbed, State.of, State.collection]

/-- In every run the worker is not disturbed in. -/
theorem only_deleting_removed {status : String → Option Status} {data sys : List Document}
    (h : Runs (step cfg) (fun s a => undisturbed s a) { status, data, sys } actions s) :
    (∀ x ∈ s.removed, x.2 = some .deleting) ∧ ∀ x ∈ s.finished, x.2 = [] := by
  have hSound := Runs.invariant (I := Sound) (by constructor <;> simp [Worker.databases]) (fun _ _ _ hs => hs.step) h
  exact ⟨hSound.removed, hSound.finished⟩

def deletedDatabase (database : String) : Option Status := if database = "d" then some .deleting else none

/-- Two documents go in a batch, and then the row. -/
def cleanup : List Action :=
  [.list ["d"], .next, .find [⟨0, "d"⟩], .delete, .find [⟨1, "d"⟩], .delete, .find [], .delete, .find [], .delete, .finalize, .next]

theorem only_deleting_removed_cleanup : ∃ s,
    Runs (step ⟨2, 1, by decide⟩) (fun s a => undisturbed s a) { status := deletedDatabase, data := [⟨0, "d"⟩], sys := [⟨1, "d"⟩] } cleanup s ∧
      (s.removed.length = 2 ∧ s.finished = [("d", [])]) ∧ ∀ x ∈ s.removed, x.2 = some .deleting :=
  (Runs.exists_checked (P := fun s => s.removed.length = 2 ∧ s.finished = [("d", [])]) (by decide +kernel)).imp fun _ h =>
    ⟨h.1, h.2, (only_deleting_removed h.1).1⟩

/-- The database is active again when the worker comes to it, and is written to before its row is removed. -/
theorem reactivated_database_removed : ∃ s,
    Runs (step ⟨2, 1, by decide⟩) (fun _ _ => True) { status := deletedDatabase, data := [⟨0, "d"⟩], sys := [] }
      [.list ["d"], .next, .setStatus "d" .active, .find [⟨0, "d"⟩], .delete, .find [], .delete, .find [], .delete, .find [], .delete,
        .write ⟨2, "d"⟩ false, .finalize] s ∧
      s.removed = [(⟨0, "d"⟩, some .active)] ∧ s.finished = [("d", [⟨2, "d"⟩])] :=
  Runs.exists_of_foldlM (by decide +kernel)

end Deletion

end Syntrix.Database
