import Syntrix.Lib.Runs
import Syntrix.Puller.Buffer

/-! # Runs of a buffer

Writers, the batcher, retention and scans take turns at a buffer. A run also remembers which events
were admitted and which keys were deleted from disk. As long as a deletion that did not find its
event on disk does not delete it there, all deleted keys stay at or below the pruning floor.
-/
namespace Syntrix.Puller

open Lib OrderCode Buffer List

structure History where
  buffer : Buffer
  admitted : List StoreChangeEvent
  removed : List Bytes

inductive BufferAction where
  | write (evt : StoreChangeEvent) (token : Bytes)
  | takeBatch
  | commitBatch
  | clearBatch
  | failBatch
  | delete (key : Bytes)
  | commitDelete
  | deleteBefore (beforeKey : Bytes)
  | pruneBefore (beforeKey : Bytes)
  | pruneExpired (beforeKey : Bytes)
  | collect
  | commitRemove
  | scanFromLineage (afterKey lineage : Bytes)
  | scanFromGroup (floor : ClusterTime) (lineage : Bytes)
  | openScan
  | closeScan

/-- A scan that holds the queues keeps writers and the batcher from changing them. -/
def Buffer.isReading (b : Buffer) : Bool :=
  match b.retention with
  | some (.reading _ _) => true
  | _ => false

/-- One step; operations that fail leave the buffer as it was. -/
def History.step (codec : EventCodec) (h : History) : BufferAction → Option History
  | .write evt token =>
    if h.buffer.isReading then none
    else (h.buffer.write codec evt token).toOption.map fun b => ⟨b, evt :: h.admitted, h.removed⟩
  | .takeBatch =>
    if h.buffer.isReading || decide (h.buffer.batcher ≠ .idle) || h.buffer.pending.isEmpty then none
    else some { h with buffer := h.buffer.takeBatch }
  | .commitBatch => if h.buffer.batcher = .taken then some { h with buffer := h.buffer.commitBatch } else none
  | .clearBatch =>
    if h.buffer.isReading || decide (h.buffer.batcher ≠ .committed) then none
    else some { h with buffer := h.buffer.clearBatch }
  | .failBatch =>
    if h.buffer.isReading || decide (h.buffer.batcher = .idle) || decide (h.buffer.batcher = .stopped) then none
    else some { h with buffer := h.buffer.failBatch }
  | .delete key =>
    match h.buffer.retention with
    | none => (h.buffer.delete key).toOption.map fun b => { h with buffer := b }
    | some _ => none
  | .commitDelete =>
    match h.buffer.retention with
    | some (.deleting key present) =>
      some ⟨h.buffer.commitDelete key present, h.admitted, if h.buffer.db[key]?.isSome then key :: h.removed else h.removed⟩
    | _ => none
  | .deleteBefore beforeKey =>
    match h.buffer.retention with
    | none => some { h with buffer := h.buffer.deleteBefore beforeKey }
    | some _ => none
  | .pruneBefore beforeKey =>
    match h.buffer.retention with
    | none => (h.buffer.pruneBefore beforeKey false).toOption.map fun b => { h with buffer := b }
    | some _ => none
  | .pruneExpired beforeKey =>
    match h.buffer.retention with
    | none => (h.buffer.pruneBefore beforeKey true).toOption.map fun b => { h with buffer := b }
    | some _ => none
  | .collect =>
    match h.buffer.retention with
    | some (.bounding beforeKey) => some { h with buffer := h.buffer.collect beforeKey }
    | _ => none
  | .commitRemove =>
    match h.buffer.retention with
    | some (.removing keys) => some ⟨h.buffer.commitRemove keys, h.admitted, keys ++ h.removed⟩
    | _ => none
  | .scanFromLineage afterKey lineage =>
    match h.buffer.retention with
    | none => (h.buffer.scanFromLineage afterKey lineage).toOption.map fun b => { h with buffer := b }
    | some _ => none
  | .scanFromGroup floor lineage =>
    match h.buffer.retention with
    | none => (h.buffer.scanFromGroup floor lineage).toOption.map fun b => { h with buffer := b }
    | some _ => none
  | .openScan =>
    match h.buffer.retention with
    | some (.scanning group) => some { h with buffer := h.buffer.openScan group }
    | _ => none
  | .closeScan =>
    match h.buffer.retention with
    | some (.reading _ _) => some { h with buffer := { h.buffer with retention := none } }
    | _ => none

def History.start (lineage : Bytes) (batchSize queueSize : Nat) : History := ⟨newBuffer lineage batchSize queueSize, [], []⟩

/-- Events have IDs, and an event that was not found on disk is not deleted from there, unless it lies
at or below the floor. -/
def Covered (h : History) : BufferAction → Prop
  | .write evt _ => evt.eventID ≠ []
  | .commitDelete => ∀ key, h.buffer.retention = some (.deleting key false) →
      h.buffer.db[key]? = none ∨ ¬ pruningFloor h.buffer.db < key
  | _ => True

section Keys

theorem formatUint32_cons (v : UInt32) : ∃ b rest, formatUint32 v = b :: rest ∧ isDigit b = true := by
  have hLength := formatUint32_length v
  cases hText : formatUint32 v with
  | nil =>
    rw [hText] at hLength
    cases hLength
  | cons b rest =>
    have hDigits : b ∈ fixedDecimal 10 v.toNat := by
      rw [← formatUint32_eq, hText]
      exact mem_cons_self
    exact ⟨b, rest, rfl, fixedDecimal_isDigit b hDigits⟩

theorem formatBufferKey_not_metadata (ct : ClusterTime) (id : Bytes) : isMetadataKey (formatBufferKey ct id) = false := by
  obtain ⟨b, rest, hText, hDigit⟩ := formatUint32_cons ct.t
  have hOther : ∀ tail : Bytes, formatBufferKey ct id ≠ 0x21 :: tail := by
    intro tail hEq
    rw [formatBufferKey, hText] at hEq
    have hHead : b = 0x21 := (List.cons.inj hEq).1
    rw [hHead] at hDigit
    cases hDigit
  simp only [isMetadataKey, Bool.or_eq_false_iff, decide_eq_false_iff_not]
  exact ⟨⟨⟨hOther _, hOther _⟩, hOther _⟩, hOther _⟩

theorem metadata_ne {key : Bytes} (h : isMetadataKey key = false) : checkpointKey ≠ key ∧ pruningFloorKey ≠ key := by
  simp only [isMetadataKey, Bool.or_eq_false_iff, decide_eq_false_iff_not] at h
  exact ⟨Ne.symm h.1.1.1, Ne.symm h.2⟩

theorem StoreChangeEvent.nil_lt_bufferKey (e : StoreChangeEvent) : [] < e.bufferKey := by
  obtain ⟨b, rest, hText, -⟩ := formatUint32_cons e.clusterTime.t
  rw [StoreChangeEvent.bufferKey, formatBufferKey, hText]
  exact nil_lt_cons _ _

end Keys

section Operations

variable {entries : List (Bytes × Bytes)}

theorem eventKeys_sorted (h : entries.Pairwise fun x y => x.1 < y.1) :
    (eventKeys entries).Pairwise (· < ·) := List.Pairwise.filter _ (pairwise_map.mpr h)

variable {k : Bytes}

theorem mem_eventKeys : k ∈ eventKeys entries ↔ (∃ v, (k, v) ∈ entries) ∧ isMetadataKey k = false := by
  simp [eventKeys]

theorem getLast?_bounds {keys : List Bytes} (h : keys.Pairwise (· < ·)) {last : Bytes} (hLast : keys.getLast? = some last)
    (hk : k ∈ keys) : ¬ last < k := by
  obtain ⟨init, rfl⟩ := getLast?_eq_some_iff.mp hLast
  rcases mem_push.mp hk with hk | rfl
  · exact ((pairwise_append.mp h).2.2 k hk last mem_cons_self).asymm
  · exact lt_irrefl _

variable {codec : EventCodec} {b b' : Buffer}

theorem Buffer.write_spec {evt : StoreChangeEvent} {token : Bytes} (hWrite : b.write codec evt token = .ok b') :
    b.closed = false ∧ token ≠ [] ∧ b.pending.length + b.flushing.length < b.queueSize ∧
      ∃ value, codec.marshal evt = .ok value ∧
        b' = { b with pending := b.pending ++ [⟨evt.bufferKey, value, token, evt⟩] } := by
  obtain ⟨hOpen, hWrite⟩ := guard_eq_ok hWrite
  obtain ⟨hToken, hWrite⟩ := guard_eq_ok hWrite
  obtain ⟨hRoom, hWrite⟩ := guard_eq_ok hWrite
  split at hWrite
  · cases hWrite
  rename_i value hMarshal
  cases hWrite
  exact ⟨by simpa using hOpen, hToken, not_le.mp hRoom, value, hMarshal, rfl⟩

theorem Buffer.pruneBefore_spec {beforeKey : Bytes} {age : Bool} (hPrune : b.pruneBefore beforeKey age = .ok b') :
  b' = b ∨ ∃ last group bound, b.db[last]?.isSome ∧ isMetadataKey last = false ∧ timestampGroupStart last = some group ∧
    ¬ group < bound ∧ b' = { b with retention := some (.bounding bound) } := by
  unfold Buffer.pruneBefore at hPrune
  split at hPrune
  · cases hPrune
  split at hPrune
  · cases hPrune
    exact .inl rfl
  rename_i last hLast
  split at hPrune
  · cases hPrune
  rename_i group hGroup
  cases hPrune
  obtain ⟨⟨v, hv⟩, hKey⟩ := mem_eventKeys.mp (mem_of_getLast? hLast)
  have hv : b.db[last]? = some v := by
    rw [← KeyValue.mem_toList]
    split at hv
    · exact (mem_filter.mp hv).1
    · exact hv
  refine .inr ⟨last, group, _, Option.isSome_iff_exists.mpr ⟨v, hv⟩, hKey, hGroup, ?_, rfl⟩
  split
  · exact lt_irrefl _
  · rename_i hNot
    exact hNot

theorem Buffer.collect_spec (b : Buffer) (beforeKey : Bytes) :
    b.collect beforeKey = { b with retention := none } ∨
      b.collect beforeKey = { b with retention := some (.removing (eventKeys (b.db.before beforeKey))) } := by
  unfold Buffer.collect
  split
  · exact .inl rfl
  split
  · exact .inl rfl
  · exact .inr rfl

theorem Buffer.openScan_spec (b : Buffer) (group : Bytes) :
    b.openScan group = { b with retention := none } ∨
      b.closed = false ∧ b.openScan group = { b with retention := some (.reading group b.db) } := by
  unfold Buffer.openScan
  split
  · exact .inl rfl
  · rename_i hOpen
    exact .inr ⟨by simpa using hOpen, rfl⟩

end Operations

section Steps

variable (codec : EventCodec) (h : History)

inductive StepTo : BufferAction → History → Prop
  | write {evt : StoreChangeEvent} {token : Bytes} {b : Buffer} :
      h.buffer.isReading = false → h.buffer.write codec evt token = .ok b →
      StepTo (.write evt token) ⟨b, evt :: h.admitted, h.removed⟩
  | takeBatch : h.buffer.isReading = false → h.buffer.batcher = .idle → h.buffer.pending ≠ [] →
      StepTo .takeBatch { h with buffer := h.buffer.takeBatch }
  | commitBatch : h.buffer.batcher = .taken → StepTo .commitBatch { h with buffer := h.buffer.commitBatch }
  | clearBatch : h.buffer.isReading = false → h.buffer.batcher = .committed →
      StepTo .clearBatch { h with buffer := h.buffer.clearBatch }
  | failBatch : h.buffer.isReading = false → h.buffer.batcher ≠ .idle → StepTo .failBatch { h with buffer := h.buffer.failBatch }
  | delete {key : Bytes} : isMetadataKey key = false →
      StepTo (.delete key) { h with buffer := { h.buffer with retention := some (.deleting key h.buffer.db[key]?.isSome) } }
  | commitDelete {key : Bytes} {present : Bool} : h.buffer.retention = some (.deleting key present) →
      StepTo .commitDelete ⟨h.buffer.commitDelete key present, h.admitted,
        if h.buffer.db[key]?.isSome then key :: h.removed else h.removed⟩
  | deleteBefore {beforeKey : Bytes} : StepTo (.deleteBefore beforeKey) { h with buffer := h.buffer.deleteBefore beforeKey }
  | pruneBefore {beforeKey : Bytes} {b : Buffer} : h.buffer.pruneBefore beforeKey false = .ok b →
      StepTo (.pruneBefore beforeKey) { h with buffer := b }
  | pruneExpired {beforeKey : Bytes} {b : Buffer} : h.buffer.pruneBefore beforeKey true = .ok b →
      StepTo (.pruneExpired beforeKey) { h with buffer := b }
  | collect {beforeKey : Bytes} : h.buffer.retention = some (.bounding beforeKey) →
      StepTo .collect { h with buffer := h.buffer.collect beforeKey }
  | commitRemove {keys : List Bytes} : h.buffer.retention = some (.removing keys) →
      StepTo .commitRemove ⟨h.buffer.commitRemove keys, h.admitted, keys ++ h.removed⟩
  | scanFromLineage {afterKey lineage group : Bytes} : h.buffer.validatePosition afterKey lineage = .ok group →
      StepTo (.scanFromLineage afterKey lineage) { h with buffer := { h.buffer with retention := some (.scanning group) } }
  | scanFromGroup {floor : ClusterTime} {lineage : Bytes} :
      h.buffer.validateHistoryFloor (formatBufferKey floor []) = .ok () →
      StepTo (.scanFromGroup floor lineage)
        { h with buffer := { h.buffer with retention := some (.scanning (formatBufferKey floor [])) } }
  | openScan {group : Bytes} : h.buffer.retention = some (.scanning group) →
      StepTo .openScan { h with buffer := h.buffer.openScan group }
  | closeScan : StepTo .closeScan { h with buffer := { h.buffer with retention := none } }

variable {codec h}

theorem toOption_map {ε α β : Type} {x : Except ε α} {f : α → β} {b : β} (h : x.toOption.map f = some b) :
    ∃ a, x = .ok a ∧ f a = b := by
  obtain ⟨a, ha, rfl⟩ := Option.map_eq_some_iff.mp h
  exact ⟨a, Lib.toOption_eq_some ha, rfl⟩

theorem History.step_spec {a : BufferAction} {h' : History} (hStep : h.step codec a = some h') : StepTo codec h a h' := by
  cases a
  all_goals simp only [History.step] at hStep
  case write evt token =>
    split at hStep
    · cases hStep
    rename_i hReading
    obtain ⟨b, hWrite, rfl⟩ := toOption_map hStep
    exact .write (by simpa using hReading) hWrite
  case takeBatch =>
    split at hStep
    · cases hStep
    rename_i hGuard
    cases hStep
    simp only [Bool.or_eq_true, decide_eq_true_eq, not_or, not_not, Bool.not_eq_true] at hGuard
    exact .takeBatch hGuard.1.1 hGuard.1.2 (by simpa using hGuard.2)
  case commitBatch =>
    split at hStep
    · rename_i hTaken
      cases hStep
      exact .commitBatch hTaken
    · cases hStep
  case clearBatch =>
    split at hStep
    · cases hStep
    rename_i hGuard
    cases hStep
    simp only [Bool.or_eq_true, decide_eq_true_eq, not_or, not_not, Bool.not_eq_true] at hGuard
    exact .clearBatch hGuard.1 hGuard.2
  case failBatch =>
    split at hStep
    · cases hStep
    rename_i hGuard
    cases hStep
    simp only [Bool.or_eq_true, decide_eq_true_eq, not_or, Bool.not_eq_true] at hGuard
    exact .failBatch hGuard.1.1 hGuard.1.2
  case delete key =>
    split at hStep
    · obtain ⟨b, hDelete, rfl⟩ := toOption_map hStep
      unfold Buffer.delete at hDelete
      split at hDelete
      · cases hDelete
      obtain ⟨hKey, hDelete⟩ := guard_eq_ok hDelete
      cases hDelete
      exact .delete (by simpa using hKey)
    · cases hStep
  case commitDelete =>
    split at hStep
    · rename_i hRetention
      cases hStep
      exact .commitDelete hRetention
    · cases hStep
  case deleteBefore beforeKey =>
    split at hStep
    · cases hStep
      exact .deleteBefore
    · cases hStep
  case pruneBefore beforeKey =>
    split at hStep
    · obtain ⟨b, hPrune, rfl⟩ := toOption_map hStep
      exact .pruneBefore hPrune
    · cases hStep
  case pruneExpired beforeKey =>
    split at hStep
    · obtain ⟨b, hPrune, rfl⟩ := toOption_map hStep
      exact .pruneExpired hPrune
    · cases hStep
  case collect =>
    split at hStep
    · rename_i hRetention
      cases hStep
      exact .collect hRetention
    · cases hStep
  case commitRemove =>
    split at hStep
    · rename_i hRetention
      cases hStep
      exact .commitRemove hRetention
    · cases hStep
  case scanFromLineage afterKey lineage =>
    split at hStep
    · obtain ⟨b, hScan, rfl⟩ := toOption_map hStep
      obtain ⟨group, hGroup, rfl⟩ := map_eq_ok hScan
      exact .scanFromLineage hGroup
    · cases hStep
  case scanFromGroup floor lineage =>
    split at hStep
    · obtain ⟨b, hScan, rfl⟩ := toOption_map hStep
      obtain ⟨-, -, hScan⟩ := bind_eq_ok hScan
      obtain ⟨⟨⟩, hFloor, rfl⟩ := map_eq_ok hScan
      exact .scanFromGroup hFloor
    · cases hStep
  case openScan =>
    split at hStep
    · rename_i hRetention
      cases hStep
      exact .openScan hRetention
    · cases hStep
  case closeScan =>
    split at hStep
    · cases hStep
      exact .closeScan
    · cases hStep

end Steps

end Syntrix.Puller
