import Mathlib

/-! # Records of a replica

A replica keeps one data record and one member record for each document. The data record holds the
business state with the token and the pin of the last local edit; the member record says which source
generations the document belongs to. A record is stored under the hash of its logical ID, for which the
ID itself stands here.
-/
namespace Syntrix.Replica

inductive Existence where
  | live
  | deleted
  | absent
deriving DecidableEq

structure WireMetadata where
  version : Option Nat := none
  createdAt : Option Int := none
  updatedAt : Option Int := none
deriving DecidableEq

inductive PinStage where
  | awaitSettlement
  | awaitSource
deriving DecidableEq

structure EditPin where
  token : Nat
  stage : PinStage
  settledRound : Option Nat := none
deriving DecidableEq

structure DataRecord where
  logicalId : String
  existence : Existence
  payload : String
  editToken : Option Nat := none
  pin : Option EditPin := none
  wire : WireMetadata := {}
deriving DecidableEq

structure Slot where
  generation : Nat
  member : Bool
deriving DecidableEq

structure MemberRecord where
  logicalId : String
  slots : List Slot
  observedExistence : Option Existence
  metadata : WireMetadata
deriving DecidableEq

def businessEqual (a b : DataRecord) : Bool :=
  a.logicalId = b.logicalId && a.existence = b.existence && (a.existence ≠ .live || a.payload = b.payload)

/-- A stored data record: the height of its revision, the time of its last write, and the revision a
download wrote it at. -/
structure Row where
  record : DataRecord
  height : Nat
  lwt : Nat
  origin : Option Nat := none
deriving DecidableEq

def Row.write (previous : Option Row) (record : DataRecord) (lwt : Nat) : Row where
  record := record
  height := previous.elim 1 fun row => row.height + 1
  lwt := lwt

/-! ## What is visible -/

/-- Whether a row waits to be pushed. -/
def pending (row : Row) (assumed : Option DataRecord) : Bool :=
  if row.origin = some row.height then false
  else assumed.all fun prior => prior.existence ≠ row.record.existence ||
    (row.record.existence = .live && prior.payload ≠ row.record.payload)

def isMember (generation : Option Nat) (member : Option MemberRecord) : Bool :=
  member.any fun m => m.slots.any fun slot => some slot.generation = generation && slot.member

def visible (active : Option Nat) (isProtected : Bool) (data : Option Row) (member : Option MemberRecord)
    (assumed : Option DataRecord) : Bool :=
  match data with
  | none => false
  | some row =>
    if row.record.existence = .absent then false
    else row.record.pin.isSome || isMember active member || isProtected || pending row assumed

/-- A document as the application sees it; a deleted one has no payload. -/
structure ReplicaDocument where
  id : String
  wire : WireMetadata
  payload : Option String
deriving DecidableEq

def ReplicaDocument.deleted (doc : ReplicaDocument) : Bool := doc.payload.isNone

def projectDocument (data : Option Row) (member : Option MemberRecord) : Option ReplicaDocument :=
  data.bind fun row =>
    if row.record.existence = .absent then none
    else some {
      id := row.record.logicalId
      wire := member.elim {} MemberRecord.metadata
      payload := if row.record.existence = .deleted then none else some row.record.payload }

def read (showDeleted : Bool) (active : Option Nat) (isProtected : Bool) (data : Option Row) (member : Option MemberRecord)
    (assumed : Option DataRecord) : Option ReplicaDocument :=
  if !visible active isProtected data member assumed ||
    (!showDeleted && data.any fun row => row.record.existence = .deleted) then none
  else projectDocument data member

/-! ## Local edits -/

inductive Mutation where
  | set (payload : String)
  | update (payload : String)
  | delete
deriving DecidableEq

inductive MutateError where
  | recoveryPending
  | conditionFailed
  | documentNotFound
deriving DecidableEq

/-- The record a local edit writes; deleting what is not there writes nothing. The fields of an update
are merged into the payload. -/
def mutate (merge : String → String → String) (conditions : Option ReplicaDocument → Bool) (recovering : Bool)
    (active : Option Nat) (isProtected : Bool) (id : String) (data : Option Row) (member : Option MemberRecord) (assumed : Option DataRecord)
    (token : Nat) (mutation : Mutation) : Except MutateError (Option DataRecord) :=
  let document := if visible active isProtected data member assumed then projectDocument data member else none
  let next (existence : Existence) (payload : String) : DataRecord := {
    logicalId := id
    existence := existence
    payload := payload
    editToken := some token
    pin := some { token := token, stage := .awaitSettlement }
    wire := data.elim {} fun row => row.record.wire }
  if recovering then .error .recoveryPending
  else if !conditions document then .error .conditionFailed
  else match mutation with
    | .set payload => .ok (some (next .live payload))
    | .update payload =>
      if document.all ReplicaDocument.deleted then .error .documentNotFound
      else .ok (some (next .live (merge (data.elim "" fun row => row.record.payload) payload)))
    | .delete => if document.all ReplicaDocument.deleted then .ok none else .ok (some (next .deleted ""))

/-! ## Source events -/

structure SourceDocument where
  id : String
  payload : String
  version : Nat
  createdAt : Int
  updatedAt : Int
deriving DecidableEq

inductive SourceEvent where
  | upsert (document : SourceDocument)
  | leave (id : String)
  | delete (id : String)
deriving DecidableEq

def SourceEvent.id : SourceEvent → String
  | .upsert document => document.id
  | .leave id => id
  | .delete id => id

def dataFrom (document : SourceDocument) : DataRecord where
  logicalId := document.id
  existence := .live
  payload := document.payload
  wire := { version := some document.version, createdAt := some document.createdAt, updatedAt := some document.updatedAt }

structure Projection where
  desired : Option DataRecord
  known : Bool
  metadata : WireMetadata
  existence : Option Existence
  present : Bool
  touched : Bool

/-- A leave or a deletion of a document the replica has never seen is nothing. -/
def Projection.add (id : String) (p : Projection) : SourceEvent → Projection
  | .upsert document =>
    { desired := some (dataFrom document), metadata := (dataFrom document).wire, existence := some .live,
      present := true, known := true, touched := true }
  | .leave _ => if p.known then { p with present := false, touched := true } else p
  | .delete _ =>
    if p.known then
      { p with
        present := false
        touched := true
        desired := some { logicalId := id, existence := .deleted, payload := "", wire := p.metadata }
        existence := some .deleted }
    else p

def Projection.start (data : Option Row) (member : Option MemberRecord) : Projection where
  desired := none
  known := data.isSome || member.isSome
  metadata := (member.map MemberRecord.metadata).getD (data.elim {} fun row => row.record.wire)
  existence := (member.bind MemberRecord.observedExistence).or (data.map fun row => row.record.existence)
  present := false
  touched := false

/-- Only the slot of the active generation is kept beside the one that is written. -/
def nextSlots (active : Option Nat) (generation : Nat) (present : Bool) (member : Option MemberRecord) : List Slot :=
  (member.elim [] MemberRecord.slots).filter (fun slot => some slot.generation = active && slot.generation ≠ generation) ++
    [⟨generation, present⟩]

def project (active : Option Nat) (generation : Nat) (id : String) (data : Option Row) (member : Option MemberRecord)
    (events : List SourceEvent) : Option (Option DataRecord × MemberRecord) :=
  let p := events.foldl (Projection.add id) (Projection.start data member)
  if p.touched then
    some (p.desired, {
      logicalId := id
      slots := nextSlots active generation p.present member
      observedExistence := p.existence
      metadata := p.metadata })
  else none

/-- The events of a page, by document in the order of the first event of each. -/
def groupById {α : Type} (id : α → String) (events : List α) : List (List α) :=
  ((events.map id).eraseDups).map fun i => events.filter fun e => id e = i

/-! ## The native protocol -/

/-- What the native protocol makes of a downloaded record: nothing when the local state differs from the
assumed one or already equals the record. -/
def replaces (row : Option Row) (assumed : Option DataRecord) (downloaded : DataRecord) : Bool :=
  match row, assumed with
  | none, _ => true
  | some _, none => false
  | some row, some assumed => businessEqual assumed row.record && !businessEqual downloaded row.record

def Row.download (previous : Option Row) (downloaded : DataRecord) (lwt : Nat) : Row where
  record :=
    { downloaded with
      editToken := (previous.elim downloaded fun row => row.record).editToken
      pin := (previous.elim downloaded fun row => row.record).pin }
  height := previous.elim 1 fun row => row.height + 1
  lwt := lwt
  origin := some (previous.elim 1 fun row => row.height + 1)

end Syntrix.Replica
