import Syntrix.Lib.KeyValue
import Syntrix.Lib.MergeUnique
import Syntrix.Puller.Event

/-! # The event buffer

Events wait in a queue, move in batches to a queue being flushed and from there to disk. Readers see
all three. Retention deletes events from disk and records the greatest deleted key as the pruning
floor; a position is valid only when its group lies above the floor. Retention and validated scans
hold one lock, each over several steps, while writes and flushes go on.
-/
namespace Syntrix.Puller

open Lib OrderCode

abbrev Database := KeyValue Byte Bytes

inductive CodecError where
  | tooLarge
  | version
  | malformed
deriving DecidableEq

/-- The durable form of events: what was written is read back as the restored event. -/
structure EventCodec where
  marshal : StoreChangeEvent → Except CodecError Bytes
  unmarshal : Bytes → Except CodecError StoreChangeEvent
  restored : StoreChangeEvent → StoreChangeEvent
  kept : ∀ e value, marshal e = .ok value → unmarshal value = .ok (restored e)

def checkpointKey : Bytes := text "!checkpoint/resume_token"
def formatKey : Bytes := text "!format"
def lineageKey : Bytes := text "!lineage"
def pruningFloorKey : Bytes := text "!pruning_floor"
def formatVersion : Bytes := text "typed-events-v2"

def isMetadataKey (key : Bytes) : Bool :=
  decide (key = checkpointKey) || decide (key = formatKey) || decide (key = lineageKey) || decide (key = pruningFloorKey)

structure WriteRequest where
  key : Bytes
  value : Bytes
  token : Bytes
  event : StoreChangeEvent

inductive FlushPhase where
  | idle
  | taken
  | committed
  | stopped
deriving DecidableEq

inductive Retention where
  /-- An event is to be deleted; whether it was found on disk. -/
  | deleting (key : Bytes) (present : Bool)
  /-- Events before a key are to be deleted. -/
  | bounding (beforeKey : Bytes)
  /-- Events to be deleted were collected. -/
  | removing (keys : List Bytes)
  /-- A scan was validated. -/
  | scanning (group : Bytes)
  /-- A scan has its view of the disk and holds the queues. -/
  | reading (group : Bytes) (view : Database)

structure Buffer where
  db : Database
  lineage : Bytes
  pending : List WriteRequest
  flushing : List WriteRequest
  batcher : FlushPhase
  closed : Bool
  retention : Option Retention
  batchSize : Nat
  queueSize : Nat

inductive BufferError where
  | closed
  | checkpointRequired
  | full
  | encoding (cause : CodecError)
  | metadata
  | lineageChanged
  | invalidPosition
  | historyExpired
  | unknownPosition
  | unflushed
  | commit
deriving DecidableEq

def newBuffer (lineage : Bytes) (batchSize queueSize : Nat) : Buffer where
  db := ((∅ : Database).insert formatKey formatVersion).insert lineageKey lineage
  lineage := lineage
  pending := []
  flushing := []
  batcher := .idle
  closed := false
  retention := none
  batchSize := if batchSize = 0 then 100 else batchSize
  queueSize := if queueSize = 0 then 10000 else queueSize

namespace Buffer

section Flush

variable (codec : EventCodec) (b : Buffer)

def write (evt : StoreChangeEvent) (token : Bytes) : Except BufferError Buffer :=
  if b.closed then .error .closed
  else if token = [] then .error .checkpointRequired
  else if b.queueSize ≤ b.pending.length + b.flushing.length then .error .full
  else match codec.marshal evt with
  | .error e => .error (.encoding e)
  | .ok value => .ok { b with pending := b.pending ++ [⟨evt.bufferKey, value, token, evt⟩] }

/-- The oldest requests of a batch stay visible while they are flushed. -/
def takeBatch : Buffer :=
  { b with flushing := b.pending.take b.batchSize, pending := b.pending.drop b.batchSize, batcher := .taken }

def batchEntries (requests : List WriteRequest) : List (Bytes × Bytes) :=
  requests.map (fun r => (r.key, r.value)) ++ (requests.getLast?.map fun r => (checkpointKey, r.token)).toList

def commitBatch : Buffer := { b with db := b.db.setAll (batchEntries b.flushing), batcher := .committed }

def clearBatch : Buffer := { b with flushing := [], batcher := .idle }

def failBatch : Buffer := { b with flushing := [], closed := true, batcher := .stopped }

end Flush

section Retain

def pruningFloor (db : Database) : Bytes := db[pruningFloorKey]?.getD []

/-- Record a greater floor with a batch of deletions; the floor is read before the batch. -/
def advancePruningFloor (db batch : Database) (floor : Bytes) : Database :=
  if ¬ pruningFloor db < floor then batch else batch.insert pruningFloorKey floor

def eventKeys (entries : List (Bytes × Bytes)) : List Bytes := (entries.map Prod.fst).filter fun k => !isMetadataKey k

variable (b : Buffer)

/-- The first step of deleting an event: whether it is on disk. -/
def delete (key : Bytes) : Except BufferError Buffer :=
  if b.closed then .error .closed
  else if isMetadataKey key then .error .metadata
  else .ok { b with retention := some (.deleting key b.db[key]?.isSome) }

def commitDelete (key : Bytes) (present : Bool) : Buffer :=
  let batch := b.db.erase key
  { b with db := if present then advancePruningFloor b.db batch key else batch, retention := none }

def deleteBefore (beforeKey : Bytes) : Buffer := { b with retention := some (.bounding beforeKey) }

/-- Retention keeps the newest group on disk, or with an age the newest group before the cutoff. -/
def pruneBefore (beforeKey : Bytes) (age : Bool) : Except BufferError Buffer :=
  if b.closed then .error .closed
  else match (eventKeys (if age then b.db.before beforeKey else b.db.toList)).getLast? with
  | none => .ok b
  | some last =>
    match timestampGroupStart last with
    | none => .error .invalidPosition
    | some protectedGroup =>
      .ok { b with retention := some (.bounding (if protectedGroup < beforeKey then protectedGroup else beforeKey)) }

def collect (beforeKey : Bytes) : Buffer :=
  if b.closed then { b with retention := none }
  else match eventKeys (b.db.before beforeKey) with
  | [] => { b with retention := none }
  | keys => { b with retention := some (.removing keys) }

def commitRemove (keys : List Bytes) : Buffer :=
  { b with db := advancePruningFloor b.db (b.db.deleteAll keys) (keys.getLast?.getD []), retention := none }

end Retain

section Scan

variable (codec : EventCodec) (b : Buffer)

def head : Bytes := (eventKeys b.db.toList).getLast?.getD []

def validateLineage (lineage : Bytes) : Except BufferError Unit :=
  if b.closed then .error .closed
  else if lineage = [] ∨ lineage ≠ b.lineage then .error .lineageChanged
  else .ok ()

def validateHistoryFloor (group : Bytes) : Except BufferError Unit :=
  if pruningFloor b.db ≠ [] ∧ ¬ pruningFloor b.db < group then .error .historyExpired else .ok ()

/-- A position is valid when its event is held and its whole group lies above the floor. -/
def validatePosition (afterKey lineage : Bytes) : Except BufferError Bytes :=
  (b.validateLineage lineage).bind fun _ =>
    match timestampGroupStart afterKey with
    | none => .error .invalidPosition
    | some group =>
      (b.validateHistoryFloor group).bind fun _ =>
        if afterKey = [] then .ok []
        else if b.db[afterKey]?.isSome || (b.pending ++ b.flushing).any (fun r => decide (r.key = afterKey)) then
          .ok group
        else .error .unknownPosition

def scanFromLineage (afterKey lineage : Bytes) : Except BufferError Buffer :=
  (b.validatePosition afterKey lineage).map fun group => { b with retention := some (.scanning group) }

def scanFromGroup (floor : ClusterTime) (lineage : Bytes) : Except BufferError Buffer :=
  (b.validateLineage lineage).bind fun _ =>
    let group := formatBufferKey floor []
    (b.validateHistoryFloor group).map fun _ => { b with retention := some (.scanning group) }

def openScan (group : Bytes) : Buffer :=
  if b.closed then { b with retention := none } else { b with retention := some (.reading group b.db) }

def diskSource (afterKey : Bytes) (view : Database) : List (Bytes × Except CodecError StoreChangeEvent) :=
  let entries := if afterKey = [] then view.toList else view.atLeast (afterKey ++ [0])
  (entries.filter fun x => !isMetadataKey x.1).map fun x => (x.1, codec.unmarshal x.2)

def queueSource (afterKey : Bytes) : List (Bytes × Except CodecError StoreChangeEvent) :=
  (((b.flushing ++ b.pending).filter fun r => afterKey < r.key).insertionSort fun r r' => ¬ r'.key < r.key).map
    fun r => (r.key, .ok r.event)

def scanned (afterKey : Bytes) (view : Database) : Except CodecError (Option (List (Bytes × StoreChangeEvent))) :=
  let sources := [diskSource codec afterKey view, b.queueSource afterKey]
  MergeUnique.drain (MergeUnique.total sources + 1) none sources

end Scan

end Buffer

end Syntrix.Puller
