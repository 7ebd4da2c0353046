import Syntrix.Puller.BufferRun

/-! # Retention and scans

In a run whose deletions are covered by the floor, every admitted event is on disk, in a queue, or at
or below the floor. A scan that was validated starts above the floor, so it gives every admitted event
of its group and after, each once.
-/
namespace Syntrix.Puller

open Lib OrderCode Buffer List Option KeyValue

/-- A value on disk is the encoding of an admitted event with its key. -/
def Stored (codec : EventCodec) (admitted : List StoreChangeEvent) (key value : Bytes) : Prop :=
  ∃ e ∈ admitted, e.bufferKey = key ∧ codec.marshal e = .ok value

namespace Buffer

def Queued (b : Buffer) (key : Bytes) : Prop := ∃ r ∈ b.flushing ++ b.pending, r.key = key

/-- The floor lies before a group, or nothing was pruned. -/
def Above (b : Buffer) (group : Bytes) : Prop := pruningFloor b.db = [] ∨ pruningFloor b.db < group

def Lock (codec : EventCodec) (b : Buffer) (admitted : List StoreChangeEvent) : Option Retention → Prop
  | none => True
  | some (.deleting key _) => isMetadataKey key = false
  | some (.bounding _) => True
  | some (.removing keys) => keys.Pairwise (· < ·) ∧ ∀ k ∈ keys, isMetadataKey k = false
  | some (.scanning group) => b.Above group
  | some (.reading group view) => b.closed = false ∧ b.Above group ∧
      (∀ k v, view[k]? = some v → isMetadataKey k = false → Stored codec admitted k v) ∧
      ∀ e ∈ admitted, ¬ e.bufferKey < group → view[e.bufferKey]?.isSome ∨ b.Queued e.bufferKey

end Buffer

structure Sound (codec : EventCodec) (h : History) : Prop where
  ids : ∀ e ∈ h.admitted, e.eventID ≠ []
  disk : ∀ k v, h.buffer.db[k]? = some v → isMetadataKey k = false → Stored codec h.admitted k v
  queue : ∀ r ∈ h.buffer.flushing ++ h.buffer.pending,
    r.event ∈ h.admitted ∧ r.key = r.event.bufferKey ∧ codec.marshal r.event = .ok r.value
  held : h.buffer.closed = false → ∀ e ∈ h.admitted,
    h.buffer.db[e.bufferKey]?.isSome ∨ h.buffer.Queued e.bufferKey ∨ ¬ pruningFloor h.buffer.db < e.bufferKey
  removed : ∀ k ∈ h.removed, ¬ pruningFloor h.buffer.db < k
  idle : h.buffer.batcher = .idle → h.buffer.flushing = []
  flushed : h.buffer.batcher = .committed → ∀ r ∈ h.buffer.flushing,
    h.buffer.db[r.key]?.isSome ∨ ¬ pruningFloor h.buffer.db < r.key
  lock : h.buffer.Lock codec h.admitted h.buffer.retention

theorem Stored.cons {codec : EventCodec} {admitted : List StoreChangeEvent} {key value : Bytes}
    (h : Stored codec admitted key value) (e : StoreChangeEvent) : Stored codec (e :: admitted) key value := by
  obtain ⟨e', he', hStored⟩ := h
  exact ⟨e', mem_cons_of_mem _ he', hStored⟩

section Steps

variable {codec : EventCodec} {h : History}

theorem sound_start (codec : EventCodec) (lineage : Bytes) (batchSize queueSize : Nat) :
    Sound codec (History.start lineage batchSize queueSize) where
  ids e he := by cases he
  disk k v hv hKey := by
    obtain ⟨hFormat, hLineage⟩ : formatKey ≠ k ∧ lineageKey ≠ k := by
      simp only [isMetadataKey, Bool.or_eq_false_iff, decide_eq_false_iff_not] at hKey
      exact ⟨Ne.symm hKey.1.1.2, Ne.symm hKey.1.2⟩
    have hNone : (History.start lineage batchSize queueSize).buffer.db[k]? = none := by
      simp only [History.start, newBuffer]
      rw [KeyValue.getElem?_insert, if_neg hLineage, KeyValue.getElem?_insert, if_neg hFormat]
      exact Std.TreeMap.getElem?_emptyc
    cases hNone.symm.trans hv
  queue r hr := by cases hr
  held _ e he := by cases he
  removed k hk := by cases hk
  idle _ := rfl
  flushed hPhase := by cases hPhase
  lock := trivial

variable (hSound : Sound codec h)

include hSound

theorem Sound.retention {r : Option Retention} (hLock : h.buffer.Lock codec h.admitted r) :
    Sound codec { h with buffer := { h.buffer with retention := r } } := by
  refine { hSound with lock := ?_ }
  cases r with
  | none => trivial
  | some r => cases r <;> exact hLock

omit hSound in
theorem Buffer.Lock.transfer {b b' : Buffer} {admitted admitted' : List StoreChangeEvent}
    (hLock : b.Lock codec admitted b.retention) (hReading : b.isReading = false)
    (hFloor : pruningFloor b'.db = pruningFloor b.db) : b'.Lock codec admitted' b.retention := by
  unfold Buffer.isReading at hReading
  cases hRetention : b.retention with
  | none => trivial
  | some r =>
    rw [hRetention] at hLock hReading
    cases r with
    | reading group view => cases hReading
    | scanning group =>
      unfold Buffer.Lock Buffer.Above at hLock ⊢
      rwa [hFloor]
    | _ => exact hLock

variable {b : Buffer}

theorem Sound.write {evt : StoreChangeEvent} {token : Bytes} (hId : evt.eventID ≠ []) (hReading : h.buffer.isReading = false)
    (hWrite : h.buffer.write codec evt token = .ok b) : Sound codec ⟨b, evt :: h.admitted, h.removed⟩ := by
  obtain ⟨-, -, -, value, hMarshal, rfl⟩ := write_spec hWrite
  have hQueue : ∀ k, h.buffer.Queued k →
      ({ h.buffer with pending := h.buffer.pending ++ [⟨evt.bufferKey, value, token, evt⟩] } : Buffer).Queued k := by
    rintro k ⟨r, hr, hKey⟩
    exact ⟨r, by rw [← append_assoc]; exact mem_append_left _ hr, hKey⟩
  refine ⟨forall_mem_cons.mpr ⟨hId, hSound.ids⟩, fun k v hv hKey => (hSound.disk k v hv hKey).cons evt,
    ?_, ?_, hSound.removed, hSound.idle, hSound.flushed, ?_⟩
  · intro r hr
    rw [← append_assoc] at hr
    rcases mem_push.mp hr with hr | rfl
    · obtain ⟨hEvent, hRest⟩ := hSound.queue r hr
      exact ⟨mem_cons_of_mem _ hEvent, hRest⟩
    · exact ⟨mem_cons_self, rfl, hMarshal⟩
  · intro hOpen e he
    obtain rfl | he := mem_cons.mp he
    · refine .inr (.inl ⟨⟨e.bufferKey, value, token, e⟩, ?_, rfl⟩)
      simp
    · exact (hSound.held hOpen e he).imp_right (Or.imp_left (hQueue _))
  · exact hSound.lock.transfer hReading rfl

theorem Sound.takeBatch (hIdle : h.buffer.batcher = .idle) (hReading : h.buffer.isReading = false) :
    Sound codec { h with buffer := h.buffer.takeBatch } := by
  have hSame : h.buffer.takeBatch.flushing ++ h.buffer.takeBatch.pending = h.buffer.flushing ++ h.buffer.pending := by
    rw [hSound.idle hIdle]
    exact take_append_drop _ _
  have hQueued : ∀ k, h.buffer.Queued k → h.buffer.takeBatch.Queued k := by
    rintro k ⟨r, hr, hKey⟩
    exact ⟨r, hSame ▸ hr, hKey⟩
  refine ⟨hSound.ids, hSound.disk, fun r hr => hSound.queue r (hSame ▸ hr), fun hOpen e he => ?_, hSound.removed,
    fun hPhase => (by cases hPhase), fun hPhase => (by cases hPhase), ?_⟩
  · exact (hSound.held hOpen e he).imp_right (Or.imp_left (hQueued _))
  · exact hSound.lock.transfer hReading rfl

theorem Sound.clearBatch (hPhase : h.buffer.batcher = .committed)
    (hReading : h.buffer.isReading = false) : Sound codec { h with buffer := h.buffer.clearBatch } := by
  refine ⟨hSound.ids, hSound.disk, fun r hr => hSound.queue r (mem_append_right _ hr), fun hOpen e he => ?_,
    hSound.removed, fun _ => rfl, fun hCommitted => (by cases hCommitted), hSound.lock.transfer hReading rfl⟩
  -- a request that leaves the queue is on disk, or was pruned after it got there
  obtain hDisk | ⟨r, hr, hKey⟩ | hFloor := hSound.held hOpen e he
  · exact .inl hDisk
  · obtain hr | hr := mem_append.mp hr
    · exact (hKey ▸ hSound.flushed hPhase r hr).imp_right .inr
    · exact .inr (.inl ⟨r, hr, hKey⟩)
  · exact .inr (.inr hFloor)

theorem Sound.failBatch (hReading : h.buffer.isReading = false) : Sound codec { h with buffer := h.buffer.failBatch } :=
  ⟨hSound.ids, hSound.disk, fun r hr => hSound.queue r (mem_append_right _ hr), fun hOpen => (by cases hOpen),
    hSound.removed, fun _ => rfl, fun hCommitted => (by cases hCommitted), hSound.lock.transfer hReading rfl⟩

omit hSound in
theorem pruningFloor_congr {db db' : Database} (h : db'[pruningFloorKey]? = db[pruningFloorKey]?) :
    pruningFloor db' = pruningFloor db := by
  rw [pruningFloor, pruningFloor, h]

omit hSound in
theorem getElem?_batchEntries (db : Database) (requests : List WriteRequest) {k : Bytes} (hk : checkpointKey ≠ k) :
    (∃ r ∈ requests, r.key = k ∧ (db.setAll (batchEntries requests))[k]? = some r.value) ∨
      (∀ r ∈ requests, r.key ≠ k) ∧ (db.setAll (batchEntries requests))[k]? = db[k]? := by
  obtain ⟨v, hv, hGet⟩ | ⟨hNot, hGet⟩ := getElem?_setAll db (batchEntries requests) k
  · obtain hv | hv := mem_append.mp hv
    · obtain ⟨r, hr, hEq⟩ := List.mem_map.mp hv
      cases hEq
      exact .inl ⟨r, hr, rfl, hGet⟩
    · obtain ⟨r, -, hEq⟩ := map_eq_some_iff.mp (Option.mem_toList.mp hv)
      exact absurd (congrArg Prod.fst hEq) hk
  · refine .inr ⟨fun r hr hKey => hNot ?_, hGet⟩
    refine List.mem_map.mpr ⟨(r.key, r.value), mem_append_left _ (List.mem_map.mpr ⟨r, hr, rfl⟩), hKey⟩

theorem Sound.flushing_key {r : WriteRequest} (hr : r ∈ h.buffer.flushing) : isMetadataKey r.key = false := by
  rw [(hSound.queue r (mem_append_left _ hr)).2.1]
  exact formatBufferKey_not_metadata _ _

theorem Sound.commitBatch_floor : pruningFloor h.buffer.commitBatch.db = pruningFloor h.buffer.db := by
  refine pruningFloor_congr ?_
  obtain ⟨r, hr, hKey, -⟩ | ⟨-, hGet⟩ := getElem?_batchEntries h.buffer.db h.buffer.flushing
    (k := pruningFloorKey) (by decide)
  · exact absurd hKey (metadata_ne (hSound.flushing_key hr)).2.symm
  · exact hGet

omit hSound in
theorem commitBatch_kept {k : Bytes} (hSome : b.db[k]?.isSome) : b.commitBatch.db[k]?.isSome := by
  obtain ⟨v, -, hGet⟩ | ⟨-, hGet⟩ := getElem?_setAll b.db (batchEntries b.flushing) k
  · exact isSome_iff_exists.mpr ⟨v, hGet⟩
  · exact hGet ▸ hSome

omit hSound in
theorem stored_commitBatch {admitted : List StoreChangeEvent}
    (hQueue : ∀ r ∈ b.flushing, r.event ∈ admitted ∧ r.key = r.event.bufferKey ∧ codec.marshal r.event = .ok r.value)
    (hDisk : ∀ k v, b.db[k]? = some v → isMetadataKey k = false → Stored codec admitted k v) {k v : Bytes}
    (hv : b.commitBatch.db[k]? = some v) (hk : isMetadataKey k = false) : Stored codec admitted k v := by
  obtain ⟨r, hr, hKey, hGet⟩ | ⟨-, hGet⟩ := getElem?_batchEntries b.db b.flushing (metadata_ne hk).1
  · obtain ⟨hEvent, hBufferKey, hMarshal⟩ := hQueue r hr
    cases hGet.symm.trans hv
    exact ⟨r.event, hEvent, hBufferKey.symm.trans hKey, hMarshal⟩
  · exact hDisk k v (hGet.symm.trans hv) hk

omit hSound in
theorem commitBatch_flushed {r : WriteRequest} (hr : r ∈ b.flushing) (hk : isMetadataKey r.key = false) :
    b.commitBatch.db[r.key]?.isSome := by
  obtain ⟨r', -, -, hGet⟩ | ⟨hNone, -⟩ := getElem?_batchEntries b.db b.flushing (metadata_ne hk).1
  · exact isSome_iff_exists.mpr ⟨_, hGet⟩
  · exact absurd rfl (hNone r hr)

theorem Sound.commitBatch : Sound codec { h with buffer := h.buffer.commitBatch } := by
  have hFloor := hSound.commitBatch_floor
  refine ⟨hSound.ids, fun k v hv hk => ?_, hSound.queue, fun hOpen e he => ?_, fun k hk => ?_,
    fun hPhase => (by cases hPhase), fun _ r hr => .inl ?_, ?_⟩
  · exact stored_commitBatch (fun r hr => hSound.queue r (mem_append_left _ hr)) hSound.disk hv hk
  · obtain hDisk | hQueue | hBelow := hSound.held hOpen e he
    · exact .inl (commitBatch_kept hDisk)
    · exact .inr (.inl hQueue)
    · exact .inr (.inr (hFloor ▸ hBelow))
  · exact hFloor ▸ hSound.removed k hk
  · exact commitBatch_flushed hr (hSound.flushing_key hr)
  · have hLock := hSound.lock
    change h.buffer.commitBatch.Lock codec h.admitted h.buffer.retention
    cases hRetention : h.buffer.retention with
    | none => trivial
    | some r =>
      rw [hRetention] at hLock
      cases r with
      | scanning group | reading group view =>
        unfold Buffer.Lock Buffer.Above at hLock ⊢
        rwa [hFloor]
      | _ => exact hLock

theorem Sound.remove {db : Database} {removed : List Bytes}
    (hDb : ∀ k, isMetadataKey k = false → db[k]? = h.buffer.db[k]? ∨ db[k]? = none ∧ ¬ pruningFloor db < k)
    (hFloor : ∀ k, ¬ pruningFloor h.buffer.db < k → ¬ pruningFloor db < k)
    (hRemoved : ∀ k ∈ removed, k ∈ h.removed ∨ ¬ pruningFloor db < k) :
    Sound codec ⟨{ h.buffer with db := db, retention := none }, h.admitted, removed⟩ := by
  have hKept : ∀ k, isMetadataKey k = false → h.buffer.db[k]?.isSome → db[k]?.isSome ∨ ¬ pruningFloor db < k := by
    intro k hk hSome
    obtain hSame | ⟨-, hBelow⟩ := hDb k hk
    · exact .inl (hSame ▸ hSome)
    · exact .inr hBelow
  refine ⟨hSound.ids, fun k v hv hk => ?_, hSound.queue, fun hOpen e he => ?_, fun k hk => ?_, hSound.idle,
    fun hPhase r hr => ?_, trivial⟩
  · obtain hSame | ⟨hNone, -⟩ := hDb k hk
    · exact hSound.disk k v (hSame.symm.trans hv) hk
    · cases hNone.symm.trans hv
  · obtain hDisk | hQueue | hBelow := hSound.held hOpen e he
    · exact (hKept _ (formatBufferKey_not_metadata _ _) hDisk).imp_right .inr
    · exact .inr (.inl hQueue)
    · exact .inr (.inr (hFloor _ hBelow))
  · obtain hOld | hBelow := hRemoved k hk
    · exact hFloor k (hSound.removed k hOld)
    · exact hBelow
  · obtain hDisk | hBelow := hSound.flushed hPhase r hr
    · exact hKept _ (hSound.flushing_key hr) hDisk
    · exact .inr (hFloor _ hBelow)

omit hSound in
theorem advancePruningFloor_spec {db batch : Database} (hSame : batch[pruningFloorKey]? = db[pruningFloorKey]?)
    (floor : Bytes) :
    (∀ k, pruningFloorKey ≠ k → (advancePruningFloor db batch floor)[k]? = batch[k]?) ∧
      (∀ k, ¬ pruningFloor db < k → ¬ pruningFloor (advancePruningFloor db batch floor) < k) ∧
      ¬ pruningFloor (advancePruningFloor db batch floor) < floor ∧
      (pruningFloor (advancePruningFloor db batch floor) = pruningFloor db ∨
        pruningFloor (advancePruningFloor db batch floor) = floor) := by
  by_cases hLess : pruningFloor db < floor
  · have hFloor : pruningFloor (batch.insert pruningFloorKey floor) = floor := by
      rw [pruningFloor, KeyValue.getElem?_insert, if_pos rfl]
      rfl
    rw [advancePruningFloor, if_neg (not_not.mpr hLess), hFloor]
    refine ⟨fun k hk => by rw [KeyValue.getElem?_insert, if_neg hk], fun k hk hLt => hk (hLess.trans hLt), lt_irrefl _,
      .inr rfl⟩
  · have hFloor := pruningFloor_congr hSame
    rw [advancePruningFloor, if_pos hLess, hFloor]
    exact ⟨fun k _ => rfl, fun k hk => hk, hLess, .inl rfl⟩

theorem Sound.commitDelete {key : Bytes} {present : Bool}
    (hRetention : h.buffer.retention = some (.deleting key present)) (hCovered : Covered h .commitDelete) :
    Sound codec ⟨h.buffer.commitDelete key present, h.admitted,
      if h.buffer.db[key]?.isSome then key :: h.removed else h.removed⟩ := by
  have hKey : isMetadataKey key = false := by
    have hLock := hSound.lock
    rw [hRetention] at hLock
    exact hLock
  have hErase : (h.buffer.db.erase key)[pruningFloorKey]? = h.buffer.db[pruningFloorKey]? := by
    rw [getElem?_erase, if_neg (metadata_ne hKey).2.symm]
  cases present with
  | true =>
    obtain ⟨hGet, hMono, hNew, -⟩ := advancePruningFloor_spec hErase key
    refine hSound.remove (fun k hk => ?_) hMono fun k hk => ?_
    · rw [if_pos rfl, hGet k (metadata_ne hk).2, getElem?_erase]
      rcases eq_or_ne key k with rfl | hOther
      · exact .inr ⟨if_pos rfl, hNew⟩
      · exact .inl (if_neg hOther)
    · split at hk
      · obtain rfl | hk := mem_cons.mp hk
        · exact .inr hNew
        · exact .inl hk
      · exact .inl hk
  | false =>
    have hFloor := pruningFloor_congr hErase
    refine hSound.remove (fun k hk => ?_) (fun k hk => ?_) fun k hk => ?_
    · rw [if_neg Bool.false_ne_true, getElem?_erase]
      rcases eq_or_ne key k with rfl | hOther
      · rw [if_pos rfl, hFloor]
        exact (hCovered key hRetention).imp (fun hNone => hNone.symm) (fun hBelow => ⟨rfl, hBelow⟩)
      · exact .inl (if_neg hOther)
    · rw [if_neg Bool.false_ne_true, hFloor]
      exact hk
    · rw [if_neg Bool.false_ne_true, hFloor]
      split at hk
      · rename_i hSome
        obtain rfl | hk := mem_cons.mp hk
        · refine .inr ((hCovered k hRetention).resolve_left fun hNone => ?_)
          rw [hNone] at hSome
          cases hSome
        · exact .inl hk
      · exact .inl hk

theorem Sound.commitRemove {keys : List Bytes} (hRetention : h.buffer.retention = some (.removing keys)) :
    Sound codec ⟨h.buffer.commitRemove keys, h.admitted, keys ++ h.removed⟩ := by
  obtain ⟨hSorted, hKeys⟩ : keys.Pairwise (· < ·) ∧ ∀ k ∈ keys, isMetadataKey k = false := by
    have hLock := hSound.lock
    rw [hRetention] at hLock
    exact hLock
  have hDelete : (h.buffer.db.deleteAll keys)[pruningFloorKey]? = h.buffer.db[pruningFloorKey]? := by
    rw [getElem?_deleteAll, if_neg fun hMem => (metadata_ne (hKeys _ hMem)).2 rfl]
  obtain ⟨hGet, hMono, hNew, -⟩ := advancePruningFloor_spec hDelete (keys.getLast?.getD [])
  have hBelow : ∀ k ∈ keys, ¬ pruningFloor (advancePruningFloor h.buffer.db (h.buffer.db.deleteAll keys)
      (keys.getLast?.getD [])) < k := by
    intro k hk hLt
    obtain ⟨last, hLast⟩ := ne_none_iff_exists'.mp (mt getLast?_eq_none_iff.mp (ne_nil_of_mem hk))
    rw [hLast] at hNew hLt
    exact hNew (lt_of_lt_of_le hLt (not_lt.mp (getLast?_bounds hSorted hLast hk)))
  refine hSound.remove (fun k hk => ?_) hMono fun k hk => ?_
  · rw [hGet k (metadata_ne hk).2, getElem?_deleteAll]
    by_cases hMem : k ∈ keys
    · exact .inr ⟨if_pos hMem, hBelow k hMem⟩
    · exact .inl (if_neg hMem)
  · exact (mem_append.mp hk).symm.imp_right (hBelow k)

theorem Sound.collect (beforeKey : Bytes) : Sound codec { h with buffer := h.buffer.collect beforeKey } := by
  obtain hNone | hKeys := h.buffer.collect_spec beforeKey
  · rw [hNone]
    exact hSound.retention trivial
  rw [hKeys]
  refine hSound.retention ⟨eventKeys_sorted ?_, fun k hk => (mem_eventKeys.mp hk).2⟩
  exact List.Pairwise.filter _ (toList_sorted _)

theorem Sound.pruneBefore {beforeKey : Bytes} {age : Bool}
    (hPrune : h.buffer.pruneBefore beforeKey age = .ok b) : Sound codec { h with buffer := b } := by
  obtain rfl | ⟨-, -, bound, -, -, -, -, rfl⟩ := pruneBefore_spec hPrune
  · exact hSound
  · exact hSound.retention trivial

omit hSound in
theorem above_of_validateHistoryFloor {group : Bytes} (h : b.validateHistoryFloor group = .ok ()) : b.Above group := by
  unfold validateHistoryFloor at h
  obtain ⟨hFloor, h⟩ := guard_eq_ok h
  rw [not_and_or, not_not, not_not] at hFloor
  exact hFloor

omit hSound in
theorem validatePosition_above {afterKey lineage group : Bytes} (h : b.validatePosition afterKey lineage = .ok group) :
    timestampGroupStart afterKey = some group ∧ b.Above group := by
  obtain ⟨-, -, h⟩ := bind_eq_ok h
  split at h
  · cases h
  rename_i group' hGroup
  obtain ⟨⟨⟩, hFloor, h⟩ := bind_eq_ok h
  split at h
  · rename_i hEmpty
    cases h
    rw [hEmpty] at hGroup
    cases hGroup
    exact ⟨by rw [hEmpty]; rfl, above_of_validateHistoryFloor hFloor⟩
  · split at h
    · cases h
      exact ⟨hGroup, above_of_validateHistoryFloor hFloor⟩
    · cases h

theorem Sound.openScan {group : Bytes} (hRetention : h.buffer.retention = some (.scanning group)) :
    Sound codec { h with buffer := h.buffer.openScan group } := by
  have hAbove : h.buffer.Above group := by
    have hLock := hSound.lock
    rw [hRetention] at hLock
    exact hLock
  obtain hNone | ⟨hOpen, hView⟩ := h.buffer.openScan_spec group
  · rw [hNone]
    exact hSound.retention trivial
  rw [hView]
  refine hSound.retention ⟨hOpen, hAbove, hSound.disk, fun e he hLater => ?_⟩
  obtain hDisk | hQueue | hBelow := hSound.held hOpen e he
  · exact .inl hDisk
  · exact .inr hQueue
  -- nothing at or below the floor is in a group above it
  obtain hEmpty | hLess := hAbove
  · rw [hEmpty] at hBelow
    exact absurd e.nil_lt_bufferKey hBelow
  · exact absurd (lt_of_lt_of_le hLess (not_lt.mp hLater)) hBelow

theorem Sound.step {a : BufferAction} (hCovered : Covered h a) {h' : History}
    (hStep : h.step codec a = some h') : Sound codec h' := by
  cases History.step_spec hStep with
  | write hReading hWrite => exact hSound.write hCovered hReading hWrite
  | takeBatch hReading hIdle _ => exact hSound.takeBatch hIdle hReading
  | commitBatch => exact hSound.commitBatch
  | clearBatch hReading hPhase => exact hSound.clearBatch hPhase hReading
  | failBatch hReading _ => exact hSound.failBatch hReading
  | delete hKey => exact hSound.retention hKey
  | commitDelete hRetention => exact hSound.commitDelete hRetention hCovered
  | deleteBefore | closeScan => exact hSound.retention trivial
  | pruneBefore hPrune | pruneExpired hPrune => exact hSound.pruneBefore hPrune
  | collect => exact hSound.collect _
  | commitRemove hRetention => exact hSound.commitRemove hRetention
  | scanFromLineage hGroup => exact hSound.retention (validatePosition_above hGroup).2
  | scanFromGroup hFloor => exact hSound.retention (above_of_validateHistoryFloor hFloor)
  | openScan hRetention => exact hSound.openScan hRetention

end Steps

end Syntrix.Puller
