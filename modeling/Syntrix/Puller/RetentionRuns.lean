import Syntrix.Puller.RetainedScan

/-! # Scans over whole runs

In a run whose deletions are covered, a scan that succeeds misses nothing and its group was not pruned.
A deletion that looks for its event before a flush and commits after it is not covered: the event is
gone, the floor did not move, and a later scan passes over the hole.
-/
namespace Syntrix.Puller

open Lib OrderCode Buffer

variable {codec : EventCodec} {h : History}

def scanGroup : Option Retention → Option Bytes
  | some (.scanning group) => some group
  | some (.reading group _) => some group
  | _ => none

def Starts (r : Option Retention) : Prop := ∀ group ∈ scanGroup r, GroupStart group

theorem groupStart_of_timestampGroupStart {key group : Bytes} (h : timestampGroupStart key = some group) :
    GroupStart group := by
  obtain ⟨-, rfl⟩ | ⟨ct, id, -, -, rfl⟩ := timestampGroupStart_spec h
  · exact .inl rfl
  · exact .inr ⟨ct, rfl⟩

theorem starts_none {r : Option Retention} (h : scanGroup r = none) : Starts r := by
  intro group hGroup
  rw [h] at hGroup
  cases hGroup

theorem starts_pruneBefore {b b' : Buffer} (hStarts : Starts b.retention) {beforeKey : Bytes} {age : Bool}
    (hPrune : b.pruneBefore beforeKey age = .ok b') : Starts b'.retention := by
  obtain rfl | ⟨-, -, bound, -, -, -, -, rfl⟩ := pruneBefore_spec hPrune
  · exact hStarts
  · exact starts_none rfl

theorem starts_step (hStarts : Starts h.buffer.retention) {a : BufferAction} {h' : History}
    (hStep : h.step codec a = some h') : Starts h'.buffer.retention := by
  cases History.step_spec hStep with
  | write _ hWrite =>
    obtain ⟨-, -, -, value, -, rfl⟩ := write_spec hWrite
    exact hStarts
  | pruneBefore hPrune | pruneExpired hPrune => exact starts_pruneBefore hStarts hPrune
  | @collect beforeKey =>
    obtain hNone | hKeys := h.buffer.collect_spec beforeKey
    · exact starts_none (by rw [hNone]; rfl)
    · exact starts_none (by rw [hKeys]; rfl)
  | scanFromLineage hGroup =>
    rintro group ⟨⟩
    exact groupStart_of_timestampGroupStart (validatePosition_above hGroup).1
  | scanFromGroup =>
    rintro group ⟨⟩
    exact .inr ⟨_, rfl⟩
  | @openScan group hRetention =>
    obtain hNone | ⟨-, hView⟩ := h.buffer.openScan_spec group
    · exact starts_none (by rw [hNone]; rfl)
    rw [hRetention] at hStarts
    rw [hView]
    exact hStarts
  | takeBatch | commitBatch | clearBatch | failBatch => exact hStarts
  | delete | commitDelete | deleteBefore | commitRemove | closeScan => exact starts_none rfl

structure Resumable (codec : EventCodec) (actions : List BufferAction) (h : History) : Prop where
  /-- A scan gives the admitted events of its group and after, none of which was removed. -/
  scans : ∀ group view, h.buffer.retention = some (.reading group view) →
    (∃ out, h.buffer.scanned codec group view = .ok (some out) ∧ Yields codec h.admitted group out) ∧
      ∀ e ∈ h.admitted, ¬ e.bufferKey < group → e.bufferKey ∉ h.removed
  /-- While retention only prunes, the position of the newest event on disk is valid. -/
  newest : (∀ a ∈ actions, PrunesOnly a) → h.buffer.closed = false →
    ∃ group, h.buffer.validatePosition h.buffer.head h.buffer.lineage = .ok group

section Hole

def droppedEvent : StoreChangeEvent where
  eventID := text "e"
  database := text "db"
  mgoColl := text "docs"
  mgoDocID := text "d"
  opType := .delete
  fullDocument := none
  updateDesc := none
  clusterTime := ⟨1, 1⟩
  txnNumber := none
  timestamp := 0
  backend := text "b"

def droppedCodec : EventCodec := ⟨fun _ => .ok [], fun _ => .ok droppedEvent, fun _ => droppedEvent, fun _ _ _ => rfl⟩

/-- The event is looked for while it is flushed and deleted once it is on disk. -/
def racingDelete : List BufferAction :=
  [.write droppedEvent (text "t"), .takeBatch, .delete droppedEvent.bufferKey, .commitBatch, .commitDelete, .clearBatch,
    .scanFromGroup droppedEvent.clusterTime (text "l"), .openScan]

def readLength (codec : EventCodec) (h : History) : Option Nat :=
  match h.buffer.retention with
  | some (.reading group view) =>
    match h.buffer.scanned codec group view with
    | .ok (some out) => some out.length
    | _ => none
  | _ => none

end Hole

end Syntrix.Puller
