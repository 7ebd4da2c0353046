import Syntrix.Lib.Runs
import Syntrix.Replica.Records

/-! # Pushing and downloading

A replica edits its documents, pushes the edits and downloads pages of the source, while other clients
write to the server. The two directions share the stored rows and the assumed states only, and their
steps interleave freely. What the server has accepted and where the content of a row came from is kept
beside the state.
-/
namespace Syntrix.Replica.Exchange

open Lib Function

/-! ## The server -/

structure Commit where
  version : Nat
  deleted : Bool
  payload : String
deriving DecidableEq

def Commit.existence (c : Commit) : Existence := if c.deleted then .deleted else .live

abbrev Log := List (String × Commit)

def current (log : Log) (id : String) : Option Commit :=
  ((log.filter fun x => x.1 = id).getLast?).map Prod.snd

inductive PushAction where
  | create
  | update
  | delete
deriving DecidableEq

structure Operation where
  action : PushAction
  payload : String
  baseVersion : Option Nat
deriving DecidableEq

inductive Served where
  | written (commit : Commit)
  | unchanged
  | conflict
deriving DecidableEq

def isLive (current : Option Commit) : Option Commit := current.filter fun c => !c.deleted

/-- A tombstone is replaced by a creation, whose version starts over. -/
def serve (current : Option Commit) (op : Operation) : Served :=
  match isLive current, op.action with
  | some _, .create => .conflict
  | none, .create => .written ⟨1, false, op.payload⟩
  | none, .update => if op.baseVersion.isSome then .conflict else .written ⟨1, false, op.payload⟩
  | none, .delete => if op.baseVersion.isSome then .conflict else .unchanged
  | some c, .update =>
    if op.baseVersion.any (fun v => v ≠ c.version) then .conflict else .written ⟨c.version + 1, false, op.payload⟩
  | some c, .delete =>
    if op.baseVersion.any (fun v => v ≠ c.version) then .conflict else .written ⟨c.version + 1, true, ""⟩

/-! ## The replica -/

structure Change where
  desired : DataRecord
  assumed : Option DataRecord
  action : Option PushAction
  baseVersion : Option Nat
  attempts : Nat
  satisfied : Bool
deriving DecidableEq

/-- An event of a page, with the version the server committed it at. -/
structure Delivered where
  event : SourceEvent
  version : Nat
deriving DecidableEq

structure Page where
  generation : Nat
  groups : List (List Delivered)
deriving DecidableEq

/-- The records of one document on their way to the native protocol. -/
structure Outgoing where
  id : String
  desired : Option DataRecord
  member : MemberRecord
  version : Nat
deriving DecidableEq

structure State where
  log : Log
  rows : String → Option Row
  assumed : String → Option DataRecord
  members : String → Option MemberRecord
  active : Option Nat
  changes : String → Option Change
  page : Option Page
  outgoing : List Outgoing
  /-- The edits of this replica the server has accepted. -/
  accepted : List (String × Nat)
  /-- The version a row was downloaded at; a row that holds a local edit has none. -/
  provenance : String → Option Nat

def start : State where
  log := []
  rows := fun _ => none
  assumed := fun _ => none
  members := fun _ => none
  active := none
  changes := fun _ => none
  page := none
  outgoing := []
  accepted := []
  provenance := fun _ => none

def State.read (s : State) (id : String) : Option ReplicaDocument :=
  Replica.read true s.active (s.changes id).isSome (s.rows id) (s.members id) (s.assumed id)

/-! ## Upstream -/

/-- The change a row asks for. A deletion of what is not on the server is not sent. -/
def changeOf (row : Row) (assumed : Option DataRecord) : Change :=
  let assumedLive := assumed.filter fun a => a.existence = .live
  { desired := row.record
    assumed := assumed
    action :=
      match assumedLive, row.record.existence with
      | some _, .deleted => some .delete
      | some _, _ => some .update
      | none, .deleted => none
      | none, _ => some .create
    baseVersion := assumedLive.bind fun a => a.wire.version
    attempts := 0
    satisfied := false }

def fromRemote (id : String) (document : Option Commit) : DataRecord :=
  match document with
  | none => { logicalId := id, existence := .absent, payload := "" }
  | some c =>
    { logicalId := id
      existence := c.existence
      payload := if c.deleted then "" else c.payload
      wire := { version := some c.version } }

/-- What becomes of a change the server refused: it may be satisfied already, it is sent again against
the version the server has when that still holds the assumed state, and it is a conflict otherwise. -/
def refused (id : String) (remote : Option Commit) (change : Change) : Option Change :=
  let record := fromRemote id remote
  if businessEqual record change.desired then some { change with satisfied := true }
  else if change.action ≠ some .create && change.assumed.any (fun a => record.existence = .live && businessEqual record a) then
    if change.attempts ≥ 3 then none
    else some { change with baseVersion := record.wire.version }
  else none

/-- An update without a version first asks the server for the one that holds the assumed state. -/
def preflight (id : String) (remote : Option Commit) (change : Change) : Option Change :=
  let record := fromRemote id remote
  if record.existence = .live && change.assumed.any (businessEqual record) then
    some { change with baseVersion := record.wire.version }
  else none

/-! ## Downstream -/

/-- What the source is asked for: a window of documents, or a stretch of the log. -/
inductive Request where
  | window (ids : List String)
  | changes (after count : Nat)
deriving DecidableEq

def upsertOf (id : String) (c : Commit) : Delivered :=
  ⟨.upsert { id := id, payload := c.payload, version := c.version, createdAt := 0, updatedAt := 0 }, c.version⟩

def eventOf (matched : String → Commit → Bool) (id : String) (c : Commit) : Delivered :=
  if c.deleted then ⟨.delete id, c.version⟩
  else if matched id c then upsertOf id c
  else ⟨.leave id, c.version⟩

def eventsOf (matched : String → Commit → Bool) (log : Log) : Request → List Delivered
  | .window ids => ids.filterMap fun id => (isLive (current log id)).map (upsertOf id)
  | .changes after count => ((log.drop after).take count).map fun x => eventOf matched x.1 x.2

def Delivered.id (d : Delivered) : String := d.event.id

def Delivered.isLeave (d : Delivered) : Bool :=
  match d.event with
  | .leave _ => true
  | _ => false

def groupVersion (group : List Delivered) : Nat :=
  ((group.filter fun d => !d.isLeave).getLast?).elim 0 Delivered.version

def outgoingOf (s : State) (generation : Nat) (group : List Delivered) : Option Outgoing :=
  group.head?.bind fun first =>
    (project s.active generation first.id (s.rows first.id) (s.members first.id) (group.map Delivered.event)).map fun p =>
      { id := first.id, desired := p.1, member := p.2, version := groupVersion group }

/-! ## Steps -/

inductive Action where
  | remote (id : String) (op : Operation)
  | edit (id : String) (token now : Nat) (mutation : Mutation)
  | begin (id : String)
  | preflight (id : String)
  | dispatch (id : String)
  | settle (id : String)
  | abandon (id : String)
  | fetch (generation : Nat) (request : Request)
  | deliver (count : Nat)
  | apply (now : Nat)
  | finish (activate : Bool)
  | restart
deriving DecidableEq

section Steps

variable (matched : String → Commit → Bool) (merge : String → String → String)

def editStep (s : State) (id : String) (token now : Nat) (mutation : Mutation) : Option State :=
  match mutate merge (fun _ => true) false s.active (s.changes id).isSome id (s.rows id) (s.members id) (s.assumed id) token mutation with
  | .ok (some record) =>
    some { s with
      rows := update s.rows id (some (Row.write (s.rows id) record now))
      provenance := update s.provenance id none }
  | .ok none => some s
  | .error _ => none

def beginStep (s : State) (id : String) : Option State :=
  match s.changes id, s.rows id with
  | none, some row =>
    if pending row (s.assumed id) then
      some { s with changes := update s.changes id (some (changeOf row (s.assumed id))) }
    else none
  | _, _ => none

def preflightStep (s : State) (id : String) : Option State :=
  match s.changes id with
  | some change =>
    if change.baseVersion = none ∧ (change.action = some .update ∨ change.action = some .delete) then
      some { s with changes := update s.changes id (preflight id (current s.log id) change) }
    else none
  | none => none

/-- The operation a change is sent as; an update is not sent before it has a version. -/
def operationOf (change : Change) : Option Operation :=
  if change.satisfied then none
  else change.action.bind fun action =>
    if action ≠ .create ∧ change.baseVersion = none then none
    else some ⟨action, if change.desired.existence = .live then change.desired.payload else "", change.baseVersion⟩

def dispatchStep (s : State) (id : String) : Option State :=
  (s.changes id).bind fun change => (operationOf change).map fun op =>
    let sent := { change with attempts := change.attempts + 1 }
    match serve (current s.log id) op with
    | .written commit =>
      { s with
        log := s.log ++ [(id, commit)]
        accepted := s.accepted ++ [(id, commit.version)]
        changes := update s.changes id (some { sent with satisfied := true }) }
    | .unchanged => { s with changes := update s.changes id (some { sent with satisfied := true }) }
    | .conflict => { s with changes := update s.changes id (refused id (current s.log id) sent) }

/-- The assumed state is replaced only if it is the one the change was made from. -/
def settleStep (s : State) (id : String) : Option State :=
  (s.changes id).bind fun change =>
    if change.satisfied || change.action.isNone then
      some { s with
        assumed := if s.assumed id = change.assumed then update s.assumed id (some change.desired) else s.assumed
        changes := update s.changes id none }
    else none

def deliverStep (s : State) (count : Nat) : Option State :=
  match s.page, s.outgoing with
  | some page, [] =>
    some { s with
      page := some { page with groups := page.groups.drop count }
      outgoing := (page.groups.take count).filterMap (outgoingOf s page.generation) }
  | _, _ => none

def applyStep (s : State) (now : Nat) : Option State :=
  match s.outgoing with
  | [] => none
  | out :: rest =>
    let members := update s.members out.id (some out.member)
    match out.desired with
    | some downloaded =>
      if replaces (s.rows out.id) (s.assumed out.id) downloaded then
        some { s with
          outgoing := rest
          members := members
          rows := update s.rows out.id (some (Row.download (s.rows out.id) downloaded now))
          assumed := update s.assumed out.id (some downloaded)
          provenance := update s.provenance out.id (some out.version) }
      else some { s with outgoing := rest, members := members }
    | none => some { s with outgoing := rest, members := members }

def finishStep (s : State) (activate : Bool) : Option State :=
  match s.page, s.outgoing with
  | some ⟨generation, []⟩, [] => some { s with page := none, active := if activate then some generation else s.active }
  | _, _ => none

def step (s : State) : Action → Option State
  | .remote id op =>
    match serve (current s.log id) op with
    | .written commit => some { s with log := s.log ++ [(id, commit)] }
    | _ => some s
  | .edit id token now mutation => editStep merge s id token now mutation
  | .begin id => beginStep s id
  | .preflight id => preflightStep s id
  | .dispatch id => dispatchStep s id
  | .settle id => settleStep s id
  | .abandon id => some { s with changes := update s.changes id none }
  | .fetch generation request =>
    if s.page.isNone then
      some { s with page := some ⟨generation, groupById Delivered.id (eventsOf matched s.log request)⟩ }
    else none
  | .deliver count => deliverStep s count
  | .apply now => applyStep s now
  | .finish activate => finishStep s activate
  | .restart => some { s with changes := fun _ => none, page := none, outgoing := [] }

end Steps

end Syntrix.Replica.Exchange
