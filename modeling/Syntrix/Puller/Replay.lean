import Syntrix.Puller.Normalizer
import Syntrix.Puller.Retention

/-! # Replay of retained history

A progress marker names a position for each backend. A retained replay checks that every name is that of a
configured backend and opens a scan of every backend from its position, or from the floor of its first
broadcast if that is later; the buffers validate what they are asked for.
-/
namespace Syntrix.Puller

open Lib OrderCode Strings Buffer List Option

section EventIDs

def scanUint32 (s : Bytes) : Option (UInt32 × Bytes) :=
  (parseUint32 (s.takeWhile isDigit)).map fun v => (v, s.dropWhile isDigit)

def scanDash : Bytes → Option Bytes
  | [] => none
  | b :: rest => if b = dash then some rest else none

def parseEventID (id : Bytes) : Option ClusterTime :=
  (scanUint32 id).bind fun (t, rest) => (scanDash rest).bind fun rest =>
    (scanUint32 rest).bind fun (i, rest) => (scanDash rest).bind fun hash =>
      if hash = [] then none else some ⟨t, i⟩

end EventIDs

section Replay

/-- The event ID of each backend and, for verified subscriptions, the lineage of its buffer. -/
structure ProgressMarker where
  positions : KeyValue Byte Bytes
  lineages : KeyValue Byte Bytes

inductive ReplayError where
  | replayBackend (name : Bytes)
  | recoveryBackend (name : Bytes)
  | eventID (id name : Bytes)
  | iterator (name : Bytes) (cause : BufferError)
deriving DecidableEq

/-- The scan of a retained replay: from the saved position, or from the floor if that is later. -/
def scanRetained (buffer : Buffer) (startID savedGroup lineage : Bytes) : Option ClusterTime → Except BufferError Buffer
  | none => buffer.scanFromLineage startID lineage
  | some floor =>
    if startID = [] ∨ savedGroup < formatBufferKey floor [] then buffer.scanFromGroup floor lineage
    else buffer.scanFromLineage startID lineage

/-- Open the scan of one backend; the floor is that of its first broadcast. -/
def openRetained (progress : ProgressMarker) (floor : Option ClusterTime) (name : Bytes) (buffer : Buffer) :
    Except ReplayError Buffer :=
  let eventID := progress.positions[name]?.getD []
  match if eventID = [] then some none else (parseEventID eventID).map some with
  | none => .error (.eventID eventID name)
  | some saved =>
    let startID := saved.elim [] fun ct => formatBufferKey ct eventID
    let savedGroup := saved.elim [] fun ct => formatBufferKey ct []
    let lineage := progress.lineages[name]?.getD buffer.lineage
    (scanRetained buffer startID savedGroup lineage floor).mapError (.iterator name)

/-- With floors only the backends that have one are replayed. -/
def replay (backends : List (Bytes × Buffer)) (progress : ProgressMarker) (firstBroadcast : Option (KeyValue Byte ClusterTime)) :
    Except ReplayError (List Buffer) :=
  (backends.filter fun b => firstBroadcast.all fun floors => floors[b.1]?.isSome).mapM fun b =>
    openRetained progress (firstBroadcast.bind fun floors => floors[b.1]?) b.1 b.2

def unconfigured {β : Type} (backends : List (Bytes × Buffer)) (names : KeyValue Byte β) : Option Bytes :=
  (names.toList.map Prod.fst).find? fun name => (backends.lookup name).isNone

def replayRetained (backends : List (Bytes × Buffer)) (progress : ProgressMarker)
    (firstBroadcast : Option (KeyValue Byte ClusterTime)) : Except ReplayError (List Buffer) :=
  match unconfigured backends progress.positions with
  | some name => .error (.replayBackend name)
  | none =>
    match firstBroadcast.bind (unconfigured backends) with
    | some name => .error (.recoveryBackend name)
    | none => replay backends progress firstBroadcast

end Replay

section Accepted

/-- An open buffer that holds some events and from which nothing was pruned. -/
structure Buffer.Retains (b : Buffer) (events : List StoreChangeEvent) : Prop where
  opened : b.closed = false
  lineage : b.lineage ≠ []
  floor : pruningFloor b.db = []
  held : ∀ e ∈ events, b.db[e.bufferKey]?.isSome ∨ b.Queued e.bufferKey

variable {b : Buffer} {events : List StoreChangeEvent}

variable (h : b.Retains events)

include h

theorem Buffer.Retains.validateLineage : b.validateLineage b.lineage = .ok () := by
  simp [Buffer.validateLineage, h.opened, h.lineage]

theorem Buffer.Retains.validateHistoryFloor (group : Bytes) : b.validateHistoryFloor group = .ok () := by
  simp [Buffer.validateHistoryFloor, h.floor]

theorem Buffer.Retains.scanFromGroup (floor : ClusterTime) : ∃ opened, b.scanFromGroup floor b.lineage = .ok opened := by
  rw [Buffer.scanFromGroup, h.validateLineage, Except.bind]
  dsimp only
  rw [h.validateHistoryFloor]
  exact ⟨_, rfl⟩

theorem Buffer.Retains.scanFromLineage {afterKey : Bytes}
    (hKey : afterKey = [] ∨ ∃ e ∈ events, e.eventID ≠ [] ∧ e.bufferKey = afterKey) :
    ∃ opened, b.scanFromLineage afterKey b.lineage = .ok opened := by
  have hPosition : ∃ group, b.validatePosition afterKey b.lineage = .ok group := by
    rw [Buffer.validatePosition, h.validateLineage, Except.bind]
    obtain rfl | ⟨e, he, hId, rfl⟩ := hKey
    · rw [timestampGroupStart, if_pos rfl]
      dsimp only
      rw [h.validateHistoryFloor]
      exact ⟨[], rfl⟩
    · refine ⟨formatBufferKey e.clusterTime [], ?_⟩
      have hNonempty : e.bufferKey ≠ [] := by simp [StoreChangeEvent.bufferKey, formatBufferKey]
      have hHeld : (b.db[e.bufferKey]?.isSome || (b.pending ++ b.flushing).any fun r => decide (r.key = e.bufferKey)) = true := by
        rw [Bool.or_eq_true, List.any_eq_true]
        refine (h.held e he).imp_right ?_
        rintro ⟨r, hr, hKey⟩
        exact ⟨r, by rw [mem_append] at hr ⊢; exact hr.symm, decide_eq_true hKey⟩
      rw [StoreChangeEvent.bufferKey, timestampGroupStart_formatBufferKey hId]
      dsimp only
      rw [h.validateHistoryFloor, Except.bind, ← StoreChangeEvent.bufferKey, if_neg hNonempty, if_pos hHeld]
  obtain ⟨group, hGroup⟩ := hPosition
  exact ⟨_, by rw [Buffer.scanFromLineage, hGroup]; rfl⟩

theorem Buffer.Retains.scanRetained {startID : Bytes} (savedGroup : Bytes)
    (hStart : startID = [] ∨ ∃ e ∈ events, e.eventID ≠ [] ∧ e.bufferKey = startID) (floor : Option ClusterTime) :
    ∃ opened, scanRetained b startID savedGroup b.lineage floor = .ok opened := by
  cases floor with
  | none => exact h.scanFromLineage hStart
  | some floor =>
    rw [Puller.scanRetained]
    split
    · exact h.scanFromGroup floor
    · exact h.scanFromLineage hStart

structure Saved (progress : ProgressMarker) (name : Bytes) (b : Buffer) (events : List StoreChangeEvent) : Prop where
  position : ∀ id ∈ progress.positions[name]?, ∃ e ∈ events, e.eventID = id ∧ parseEventID id = some e.clusterTime
  lineage : ∀ lineage ∈ progress.lineages[name]?, lineage = b.lineage

variable {progress : ProgressMarker}

theorem openRetained_accepts {name : Bytes} (hSaved : Saved progress name b events) (floor : Option ClusterTime) :
    ∃ opened, openRetained progress floor name b = .ok opened := by
  have hLineage : progress.lineages[name]?.getD b.lineage = b.lineage := by
    cases hSupplied : progress.lineages[name]? with
    | none => rfl
    | some lineage => exact hSaved.lineage lineage hSupplied
  have hOpens : ∀ (startID savedGroup : Bytes), (startID = [] ∨ ∃ e ∈ events, e.eventID ≠ [] ∧ e.bufferKey = startID) →
      ∃ opened, (scanRetained b startID savedGroup b.lineage floor).mapError (ReplayError.iterator name) = .ok opened := by
    intro startID savedGroup hStart
    obtain ⟨opened, hScan⟩ := h.scanRetained savedGroup hStart floor
    exact ⟨opened, by rw [hScan]; rfl⟩
  unfold openRetained
  rw [hLineage]
  cases hPosition : progress.positions[name]? with
  | none => exact hOpens [] [] (.inl rfl)
  | some id =>
    obtain ⟨e, he, rfl, hTime⟩ := hSaved.position id hPosition
    have hId : e.eventID ≠ [] := by
      intro hNil
      rw [hNil] at hTime
      cases hTime
    simp only [getD_some, if_neg hId, hTime, map_some]
    exact hOpens _ _ (.inr ⟨e, he, hId, rfl⟩)

omit h

variable {backends : List (Bytes × Buffer)}

theorem unconfigured_eq_none {β : Type} {names : KeyValue Byte β}
    (h : ∀ name value, names[name]? = some value → (backends.lookup name).isSome) : unconfigured backends names = none := by
  refine find?_eq_none.mpr fun name hName => ?_
  obtain ⟨x, hMem, rfl⟩ := List.mem_map.mp hName
  rw [Bool.not_eq_true, isNone_eq_false_iff]
  exact h x.1 x.2 (KeyValue.mem_toList.mp hMem)

theorem replayRetained_accepts {history : Bytes → List StoreChangeEvent} {firstBroadcast : Option (KeyValue Byte ClusterTime)}
    (hRetains : ∀ x ∈ backends, x.2.Retains (history x.1)) (hSaved : ∀ x ∈ backends, Saved progress x.1 x.2 (history x.1))
    (hNames : ∀ name id, progress.positions[name]? = some id → (backends.lookup name).isSome)
    (hFloors : ∀ floors ∈ firstBroadcast, ∀ name floor, floors[name]? = some floor → (backends.lookup name).isSome) :
    ∃ opened, replayRetained backends progress firstBroadcast = .ok opened := by
  have hRecovery : firstBroadcast.bind (unconfigured backends) = none := by
    cases firstBroadcast with
    | none => rfl
    | some floors => exact unconfigured_eq_none (hFloors floors rfl)
  rw [replayRetained, unconfigured_eq_none hNames]
  rw [hRecovery]
  refine mapM_ok_of_forall fun x hx => ?_
  have hMem := (mem_filter.mp hx).1
  exact openRetained_accepts (hRetains x hMem) (hSaved x hMem) _

theorem replayRetained_rejects {name id : Bytes} (firstBroadcast : Option (KeyValue Byte ClusterTime))
    (hPosition : progress.positions[name]? = some id) (hNone : backends.lookup name = none) :
    ∃ other, replayRetained backends progress firstBroadcast = .error (.replayBackend other) := by
  have hMem : name ∈ progress.positions.toList.map Prod.fst :=
    List.mem_map.mpr ⟨(name, id), KeyValue.mem_toList.mpr hPosition, rfl⟩
  have hFound : (unconfigured backends progress.positions).isSome := by
    rw [unconfigured, find?_isSome]
    exact ⟨name, hMem, by rw [hNone]; rfl⟩
  obtain ⟨other, hOther⟩ := isSome_iff_exists.mp hFound
  exact ⟨other, by rw [replayRetained, hOther]⟩

end Accepted

end Syntrix.Puller
