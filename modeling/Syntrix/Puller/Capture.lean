import Syntrix.Puller.BufferRun

/-! # The capture loop

The loop opens the change stream after the stored checkpoint, writes every change with its token to the
buffer and, once a live batch was empty, stores the boundary after all events were flushed. Streams
break, commits fail and the process crashes; what is on disk and the changes of the source remain.
-/
namespace Syntrix.Puller

open Lib OrderCode Buffer

inductive BootstrapMode where
  | fromNow
  | fromBeginning
deriving DecidableEq

namespace Buffer

def loadCheckpoint (b : Buffer) : Except BufferError (Option Bytes) :=
  if b.closed then .error .closed else .ok b.db[checkpointKey]?

/-- Flushing waits (`none`) as long as events are queued. -/
def flush (b : Buffer) : Option (Except BufferError Unit) :=
  if b.closed then some (.error .closed)
  else if b.pending.length + b.flushing.length = 0 then some (.ok ())
  else none

/-- Store a token without an event; `commits` tells whether the batch is committed. -/
def saveCheckpoint (b : Buffer) (token : Option Bytes) (commits : Bool) : Except BufferError Buffer :=
  if b.closed then .error .closed
  else match token with
  | none => .ok b
  | some token =>
    if token = [] then .error .checkpointRequired
    else if b.pending.length + b.flushing.length ≠ 0 then .error .unflushed
    else if commits then .ok { b with db := b.db.insert checkpointKey token }
    else .error .commit

def restart (b : Buffer) : Buffer :=
  { b with pending := [], flushing := [], batcher := .idle, closed := false, retention := none }

end Buffer

/-- The capture of one backend. The changes of the source are known by the keys of their events. -/
structure Capture where
  history : History
  changes : List Bytes
  /-- How many changes the open stream has passed. -/
  cursor : Option Nat
  /-- Whether the boundary of this stream was stored. -/
  ready : Bool
  /-- Whether capture ended with an error that is not retried. -/
  failed : Bool
  /-- Where capture of this source began. -/
  origin : Option Nat

inductive CaptureAction where
  | occur (evt : StoreChangeEvent)
  | watch
  | deliver (evt : StoreChangeEvent) (token : Bytes)
  | boundary (token : Bytes) (commits : Bool)
  | disconnect
  | halt
  | close
  | crash
  | internal (a : BufferAction)

namespace Capture

def start (mode : BootstrapMode) (lineage : Bytes) (batchSize queueSize : Nat) : Capture where
  history := History.start lineage batchSize queueSize
  changes := []
  cursor := none
  ready := false
  failed := false
  origin := match mode with
    | .fromNow => none
    | .fromBeginning => some 0

/-- Open the stream after the stored checkpoint, or where the mode says. -/
def watch (position : Bytes → Nat) (mode : BootstrapMode) (c : Capture) : Capture :=
  match c.history.buffer.loadCheckpoint with
  | .error _ => { c with failed := true }
  | .ok (some token) => { c with cursor := some (position token), ready := false }
  | .ok none =>
    match mode with
    | .fromBeginning => { c with cursor := some 0, ready := false }
    | .fromNow =>
      { c with cursor := some c.changes.length, ready := false, origin := c.origin.or (some c.changes.length) }

def fail (c : Capture) : Capture := { c with cursor := none, failed := true }

/-- Write the next change of the stream; a full queue makes the loop wait. -/
def deliver (codec : EventCodec) (c : Capture) (i : Nat) (evt : StoreChangeEvent) (token : Bytes) : Option Capture :=
  match c.history.buffer.write codec evt token with
  | .ok b => some { c with history := ⟨b, evt :: c.history.admitted, c.history.removed⟩, cursor := some (i + 1) }
  | .error .full => none
  | .error _ => some c.fail

/-- An empty live batch: flush what was admitted and store the boundary. -/
def boundary (c : Capture) (token : Bytes) (commits : Bool) : Option Capture :=
  if token = [] then some c.fail
  else match c.history.buffer.flush with
  | none => none
  | some (.error _) => some c.fail
  | some (.ok ()) =>
    match c.history.buffer.saveCheckpoint (some token) commits with
    | .error _ => some c.fail
    | .ok b => some { c with history := { c.history with buffer := b }, ready := true }

/-- One step. The token of a change, and of a boundary, stands for the changes the stream has passed. -/
def step (codec : EventCodec) (position : Bytes → Nat) (mode : BootstrapMode) (c : Capture) : CaptureAction → Option Capture
  | .occur evt => some { c with changes := c.changes ++ [evt.bufferKey] }
  | .watch => if c.failed || c.cursor.isSome then none else some (c.watch position mode)
  | .deliver evt token =>
    match c.cursor with
    | none => none
    | some i =>
      if c.changes[i]? = some evt.bufferKey ∧ position token = i + 1 ∧ c.history.buffer.isReading = false then
        c.deliver codec i evt token
      else none
  | .boundary token commits =>
    match c.cursor with
    | none => none
    | some i =>
      if c.ready = false ∧ position token = i ∧ c.history.buffer.isReading = false then c.boundary token commits else none
  | .disconnect => if c.cursor.isSome then some { c with cursor := none } else none
  | .halt => if c.cursor.isSome then some c.fail else none
  | .close =>
    if c.history.buffer.isReading then none
    else some { c with history := { c.history with buffer := { c.history.buffer with closed := true } } }
  | .crash =>
    some { c with history := { c.history with buffer := c.history.buffer.restart }, cursor := none, ready := false, failed := false }
  | .internal a =>
    match a with
    | .write _ _ => none
    | a => (c.history.step codec a).map fun h => { c with history := h }

end Capture

section Steps

variable (codec : EventCodec) (position : Bytes → Nat) (mode : BootstrapMode) (c : Capture)

inductive Capture.StepTo : CaptureAction → Capture → Prop
  | occur {evt : StoreChangeEvent} : StepTo (.occur evt) { c with changes := c.changes ++ [evt.bufferKey] }
  | watch : c.failed = false → c.cursor = none → StepTo .watch (c.watch position mode)
  | deliver {i : Nat} {evt : StoreChangeEvent} {token : Bytes} {b : Buffer} : c.cursor = some i →
      c.changes[i]? = some evt.bufferKey → position token = i + 1 → c.history.buffer.write codec evt token = .ok b →
      StepTo (.deliver evt token)
        { c with history := ⟨b, evt :: c.history.admitted, c.history.removed⟩, cursor := some (i + 1) }
  | boundary {token : Bytes} {commits : Bool} {b : Buffer} : c.cursor = some (position token) →
      c.history.buffer.saveCheckpoint (some token) commits = .ok b →
      StepTo (.boundary token commits) { c with history := { c.history with buffer := b }, ready := true }
  | fail {a : CaptureAction} : a ≠ .crash → c.cursor.isSome → StepTo a c.fail
  | disconnect : StepTo .disconnect { c with cursor := none }
  | close : StepTo .close { c with history := { c.history with buffer := { c.history.buffer with closed := true } } }
  | crash : StepTo .crash { c with
      history := { c.history with buffer := c.history.buffer.restart }, cursor := none, ready := false, failed := false }
  | internal {a : BufferAction} {h : History} : (∀ evt token, a ≠ .write evt token) → c.history.step codec a = some h →
      StepTo (.internal a) { c with history := h }

variable {codec position mode c}

theorem Capture.step_spec {a : CaptureAction} {c' : Capture} (hStep : c.step codec position mode a = some c') :
    Capture.StepTo codec position mode c a c' := by
  cases a
  all_goals simp only [Capture.step] at hStep
  case occur evt =>
    cases hStep
    exact .occur
  case watch =>
    split at hStep
    · cases hStep
    rename_i hGuard
    cases hStep
    simp only [Bool.or_eq_true, not_or, Bool.not_eq_true, Option.isSome_eq_false_iff, Option.isNone_iff_eq_none] at hGuard
    exact .watch hGuard.1 hGuard.2
  case deliver evt token =>
    split at hStep
    · cases hStep
    rename_i i hCursor
    obtain ⟨hGuard, hStep⟩ := Option.ite_none_right_eq_some.mp hStep
    unfold Capture.deliver at hStep
    split at hStep
    · rename_i b hWrite
      cases hStep
      exact .deliver hCursor hGuard.1 hGuard.2.1 hWrite
    · cases hStep
    · cases hStep
      exact .fail (by simp) (by simp [hCursor])
  case boundary token commits =>
    split at hStep
    · cases hStep
    rename_i i hCursor
    obtain ⟨hGuard, hStep⟩ := Option.ite_none_right_eq_some.mp hStep
    have hFail : Capture.StepTo codec position mode c (.boundary token commits) c.fail :=
      .fail (by simp) (by simp [hCursor])
    rw [← hGuard.2.1] at hCursor
    unfold Capture.boundary at hStep
    split at hStep
    · cases hStep
      exact hFail
    split at hStep
    · cases hStep
    · cases hStep
      exact hFail
    split at hStep
    · cases hStep
      exact hFail
    rename_i b hSave
    cases hStep
    exact .boundary hCursor hSave
  case disconnect =>
    split at hStep
    · cases hStep
      exact .disconnect
    · cases hStep
  case halt =>
    split at hStep
    · rename_i hCursor
      cases hStep
      exact .fail (by simp) hCursor
    · cases hStep
  case close =>
    split at hStep
    · cases hStep
    · cases hStep
      exact .close
  case crash =>
    cases hStep
    exact .crash
  case internal a =>
    have hMap : ∀ a : BufferAction, (∀ evt token, a ≠ .write evt token) →
        (c.history.step codec a).map (fun h => { c with history := h }) = some c' →
        Capture.StepTo codec position mode c (.internal a) c' := by
      intro a hWrite hMap
      obtain ⟨h, hNext, rfl⟩ := Option.map_eq_some_iff.mp hMap
      exact .internal hWrite hNext
    cases a with
    | write evt token => cases hStep
    | _ => exact hMap _ (by simp) hStep

end Steps

section Internal

def Deletes : Option Retention → Prop
  | some (.deleting key _) => isMetadataKey key = false
  | some (.removing keys) => ∀ k ∈ keys, isMetadataKey k = false
  | _ => True

/-- A step of retention or of a scan: queues stay, and events leave the disk only by being removed. -/
structure Retains (h h' : History) : Prop where
  admitted : h'.admitted = h.admitted
  pending : h'.buffer.pending = h.buffer.pending
  flushing : h'.buffer.flushing = h.buffer.flushing
  batcher : h'.buffer.batcher = h.buffer.batcher
  closed : h'.buffer.closed = h.buffer.closed
  queueSize : h'.buffer.queueSize = h.buffer.queueSize
  checkpoint : h'.buffer.db[checkpointKey]? = h.buffer.db[checkpointKey]?
  disk : ∀ k, isMetadataKey k = false →
    h'.buffer.db[k]? = h.buffer.db[k]? ∨ h'.buffer.db[k]? = none ∧ k ∈ h'.removed
  removed : ∀ k ∈ h.removed, k ∈ h'.removed

/-- What the steps of the batcher, of retention and of scans can do. -/
inductive Internal (h : History) : History → Prop
  | takeBatch : h.buffer.batcher = .idle → h.buffer.pending ≠ [] → Internal h { h with buffer := h.buffer.takeBatch }
  | commitBatch : h.buffer.batcher = .taken → Internal h { h with buffer := h.buffer.commitBatch }
  | clearBatch : h.buffer.batcher = .committed → Internal h { h with buffer := h.buffer.clearBatch }
  | failBatch : h.buffer.batcher ≠ .idle → Internal h { h with buffer := h.buffer.failBatch }
  | retains {h' : History} : Retains h h' → Internal h h'

variable {codec : EventCodec} {h : History}

theorem Retains.retention (h : History) (r : Option Retention) :
    Retains h { h with buffer := { h.buffer with retention := r } } :=
  ⟨rfl, rfl, rfl, rfl, rfl, rfl, rfl, fun _ _ => .inl rfl, fun _ hk => hk⟩

theorem checkpoint_ne_floor : pruningFloorKey ≠ checkpointKey := by decide

theorem getElem?_advancePruningFloor {db batch : Database} {floor k : Bytes} (hk : pruningFloorKey ≠ k) :
    (advancePruningFloor db batch floor)[k]? = batch[k]? := by
  unfold advancePruningFloor
  split
  · rfl
  · rw [KeyValue.getElem?_insert, if_neg hk]

theorem retains_commitDelete {key : Bytes} (hKey : isMetadataKey key = false) (present : Bool) :
    Retains h ⟨h.buffer.commitDelete key present, h.admitted,
      if h.buffer.db[key]?.isSome then key :: h.removed else h.removed⟩ := by
  have hGet : ∀ k, pruningFloorKey ≠ k → (h.buffer.commitDelete key present).db[k]? = (h.buffer.db.erase key)[k]? := by
    intro k hk
    cases present with
    | true => exact getElem?_advancePruningFloor hk
    | false => rfl
  refine ⟨rfl, rfl, rfl, rfl, rfl, rfl, ?_, fun k hk => ?_, fun k hk => ?_⟩
  · rw [hGet _ checkpoint_ne_floor, KeyValue.getElem?_erase, if_neg (metadata_ne hKey).1.symm]
  · rw [hGet k (metadata_ne hk).2, KeyValue.getElem?_erase]
    rcases eq_or_ne key k with rfl | hOther
    · rw [if_pos rfl]
      cases hDisk : h.buffer.db[key]? with
      | none => exact .inl rfl
      | some v => exact .inr ⟨rfl, by simp⟩
    · exact .inl (if_neg hOther)
  · split
    · exact List.mem_cons_of_mem _ hk
    · exact hk

theorem retains_commitRemove {keys : List Bytes} (hKeys : ∀ k ∈ keys, isMetadataKey k = false) :
    Retains h ⟨h.buffer.commitRemove keys, h.admitted, keys ++ h.removed⟩ := by
  have hGet : ∀ k, pruningFloorKey ≠ k → (h.buffer.commitRemove keys).db[k]? = if k ∈ keys then none else h.buffer.db[k]? := by
    intro k hk
    exact (getElem?_advancePruningFloor hk).trans (KeyValue.getElem?_deleteAll _ _ _)
  refine ⟨rfl, rfl, rfl, rfl, rfl, rfl, ?_, fun k hk => ?_, fun k hk => List.mem_append_right _ hk⟩
  · rw [hGet _ checkpoint_ne_floor, if_neg fun hMem => (metadata_ne (hKeys _ hMem)).1 rfl]
  · rw [hGet k (metadata_ne hk).2]
    by_cases hMem : k ∈ keys
    · exact .inr ⟨if_pos hMem, List.mem_append_left _ hMem⟩
    · exact .inl (if_neg hMem)

theorem internal_step (hDeletes : Deletes h.buffer.retention) {a : BufferAction} (hWrite : ∀ evt token, a ≠ .write evt token)
    {h' : History} (hStep : h.step codec a = some h') : Internal h h' ∧ Deletes h'.buffer.retention := by
  cases History.step_spec hStep with
  | @write evt token => exact absurd rfl (hWrite evt token)
  | takeBatch _ hIdle hPending => exact ⟨.takeBatch hIdle hPending, hDeletes⟩
  | commitBatch hTaken => exact ⟨.commitBatch hTaken, hDeletes⟩
  | clearBatch _ hPhase => exact ⟨.clearBatch hPhase, hDeletes⟩
  | failBatch _ hPhase => exact ⟨.failBatch hPhase, hDeletes⟩
  | delete hKey => exact ⟨.retains (Retains.retention h _), hKey⟩
  | commitDelete hRetention =>
    rw [hRetention] at hDeletes
    exact ⟨.retains (retains_commitDelete hDeletes _), trivial⟩
  | deleteBefore | scanFromLineage | scanFromGroup | closeScan => exact ⟨.retains (Retains.retention h _), trivial⟩
  | pruneBefore hPrune | pruneExpired hPrune =>
    obtain rfl | ⟨-, -, bound, -, -, -, -, rfl⟩ := pruneBefore_spec hPrune
    · exact ⟨.retains (Retains.retention h _), hDeletes⟩
    · exact ⟨.retains (Retains.retention h _), trivial⟩
  | @collect beforeKey =>
    obtain hNone | hKeys := h.buffer.collect_spec beforeKey
    · rw [hNone]
      exact ⟨.retains (Retains.retention h _), trivial⟩
    · rw [hKeys]
      exact ⟨.retains (Retains.retention h _), fun k hk => (mem_eventKeys.mp hk).2⟩
  | commitRemove hRetention =>
    rw [hRetention] at hDeletes
    exact ⟨.retains (retains_commitRemove hDeletes), trivial⟩
  | @openScan group =>
    obtain hNone | ⟨-, hView⟩ := h.buffer.openScan_spec group
    · rw [hNone]
      exact ⟨.retains (Retains.retention h _), trivial⟩
    · rw [hView]
      exact ⟨.retains (Retains.retention h _), trivial⟩

end Internal

end Syntrix.Puller
