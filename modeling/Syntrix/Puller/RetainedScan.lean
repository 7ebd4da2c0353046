import Syntrix.Puller.Retention

/-! # Scans of a sound buffer

The iterator of a scan merges the view of the disk with the queues. In a sound buffer it gives every
admitted event at or past its group once, in the order of keys. Retention that only prunes leaves the
newest group on disk, so the position of the newest event stays valid.
-/
namespace Syntrix.Puller

open Lib OrderCode Buffer KeyValue

theorem lt_append_zero_iff {s t : Bytes} : t < s ++ [0] ↔ ¬ s < t := by
  induction s generalizing t with
  | nil =>
    cases t with
    | nil => simp
    | cons b t => simp [List.cons_lt_cons_iff]
  | cons a s ih =>
    cases t with
    | nil => simp
    | cons b t =>
      rw [List.cons_append, List.cons_lt_cons_iff, List.cons_lt_cons_iff, ih]
      rcases lt_trichotomy a b with hLt | rfl | hGt
      · simp [hLt, hLt.not_gt, hLt.ne']
      · simp
      · simp [hGt, hGt.not_gt, hGt.ne']

variable {x : Bytes × Except CodecError StoreChangeEvent} {afterKey : Bytes}

theorem mem_diskSource {codec : EventCodec} {view : Database} :
    x ∈ diskSource codec afterKey view ↔
      ∃ v, view[x.1]? = some v ∧ isMetadataKey x.1 = false ∧ (afterKey = [] ∨ afterKey < x.1) ∧ x.2 = codec.unmarshal v := by
  have hEntries : ∀ y : Bytes × Bytes, y ∈ (if afterKey = [] then view.toList else view.atLeast (afterKey ++ [0])) ↔
      view[y.1]? = some y.2 ∧ (afterKey = [] ∨ afterKey < y.1) := by
    intro y
    rw [← mem_toList]
    split
    · rename_i hEmpty
      simp [hEmpty]
    · rename_i hNonempty
      simp [atLeast, lt_append_zero_iff, hNonempty]
  simp only [diskSource, List.mem_map, List.mem_filter, hEntries, Bool.not_eq_true']
  constructor
  · rintro ⟨y, ⟨⟨hView, hAfter⟩, hKey⟩, rfl⟩
    exact ⟨y.2, hView, hKey, hAfter, rfl⟩
  · rintro ⟨v, hView, hKey, hAfter, hValue⟩
    refine ⟨(x.1, v), ⟨⟨hView, hAfter⟩, hKey⟩, ?_⟩
    rw [← hValue]

theorem diskSource_sorted (codec : EventCodec) (afterKey : Bytes) (view : Database) :
    (diskSource codec afterKey view).Pairwise fun x y => x.1 < y.1 := by
  refine List.pairwise_map.mpr (List.Pairwise.filter _ ?_)
  split
  · exact toList_sorted view
  · exact List.Pairwise.filter _ (toList_sorted view)

theorem mem_queueSource {b : Buffer} :
    x ∈ b.queueSource afterKey ↔ ∃ r ∈ b.flushing ++ b.pending, afterKey < r.key ∧ x = (r.key, .ok r.event) := by
  simp only [queueSource, List.mem_map, List.mem_insertionSort, List.mem_filter, decide_eq_true_eq]
  constructor
  · rintro ⟨r, ⟨hr, hAfter⟩, rfl⟩
    exact ⟨r, hr, hAfter, rfl⟩
  · rintro ⟨r, hr, hAfter, rfl⟩
    exact ⟨r, ⟨hr, hAfter⟩, rfl⟩

theorem queueSource_sorted (b : Buffer) (afterKey : Bytes) : (b.queueSource afterKey).Pairwise fun x y => ¬ y.1 < x.1 := by
  refine List.pairwise_map.mpr ?_
  have : Std.Total fun r r' : WriteRequest => ¬ r'.key < r.key := ⟨fun r r' => by
    rcases lt_or_ge r'.key r.key with hLt | hLe
    · exact .inr hLt.asymm
    · exact .inl (not_lt.mpr hLe)⟩
  have : IsTrans WriteRequest fun r r' => ¬ r'.key < r.key := ⟨fun r r' r'' h h' =>
    not_lt.mpr ((not_lt.mp h).trans (not_lt.mp h'))⟩
  exact List.pairwise_insertionSort _ _

section Scan

variable {codec : EventCodec} {h : History} {group : Bytes} {view : Database}

/-- What a scan has to give: the keys of the admitted events at or past its group, in order. -/
structure Yields (codec : EventCodec) (admitted : List StoreChangeEvent) (group : Bytes)
    (out : List (Bytes × StoreChangeEvent)) : Prop where
  sorted : out.Pairwise fun x y => x.1 < y.1
  keys : ∀ k, k ∈ out.map Prod.fst ↔ ∃ e ∈ admitted, e.bufferKey = k ∧ ¬ k < group
  events : ∀ x ∈ out, ∃ e ∈ admitted, e.bufferKey = x.1 ∧ (x.2 = e ∨ x.2 = codec.restored e)

/-- The group a scan starts from: everything, or the events of a cluster time. -/
def GroupStart (group : Bytes) : Prop := group = [] ∨ ∃ ct, group = formatBufferKey ct []

variable {e : StoreChangeEvent}

theorem group_lt_iff (hGroup : GroupStart group) (hId : e.eventID ≠ []) : group < e.bufferKey ↔ ¬ e.bufferKey < group := by
  obtain rfl | ⟨ct, rfl⟩ := hGroup
  · simp [e.nil_lt_bufferKey]
  · rw [StoreChangeEvent.bufferKey, group_lt_formatBufferKey hId, formatBufferKey_lt_group, not_lt]

theorem Sound.scanned (hSound : Sound codec h) (hRetention : h.buffer.retention = some (.reading group view))
    (hGroup : GroupStart group) :
    ∃ out, h.buffer.scanned codec group view = .ok (some out) ∧ Yields codec h.admitted group out := by
  obtain ⟨-, -, hStored, hHeld⟩ : h.buffer.closed = false ∧ h.buffer.Above group ∧
      (∀ k v, view[k]? = some v → isMetadataKey k = false → Stored codec h.admitted k v) ∧
      ∀ e ∈ h.admitted, ¬ e.bufferKey < group → view[e.bufferKey]?.isSome ∨ h.buffer.Queued e.bufferKey := by
    have hLock := hSound.lock
    rw [hRetention] at hLock
    exact hLock
  have hDisk : ∀ x ∈ diskSource codec group view, ∃ e ∈ h.admitted, e.bufferKey = x.1 ∧ ¬ x.1 < group ∧
      x.2 = .ok (codec.restored e) := by
    intro x hx
    obtain ⟨v, hView, hKey, hAfter, hValue⟩ := mem_diskSource.mp hx
    obtain ⟨e, he, hBufferKey, hMarshal⟩ := hStored x.1 v hView hKey
    refine ⟨e, he, hBufferKey, ?_, hValue.trans (codec.kept e v hMarshal)⟩
    obtain rfl | hAfter := hAfter
    · exact List.not_lt_nil _
    · exact hAfter.asymm
  have hQueue : ∀ x ∈ h.buffer.queueSource group, ∃ e ∈ h.admitted, e.bufferKey = x.1 ∧ ¬ x.1 < group ∧ x.2 = .ok e := by
    intro x hx
    obtain ⟨r, hr, hAfter, rfl⟩ := mem_queueSource.mp hx
    obtain ⟨hEvent, hKey, -⟩ := hSound.queue r hr
    exact ⟨r.event, hEvent, hKey.symm, hAfter.asymm, rfl⟩
  have hGood : ∀ s ∈ [diskSource codec group view, h.buffer.queueSource group], MergeUnique.Good none s := by
    intro s hs
    obtain rfl | hs := List.mem_cons.mp hs
    · refine ⟨fun x hx => ?_, (diskSource_sorted codec group view).imp fun hLt => hLt.le, fun k hk => (by cases hk)⟩
      obtain ⟨e, -, -, -, hValue⟩ := hDisk x hx
      exact ⟨_, hValue⟩
    · cases List.mem_singleton.mp hs
      refine ⟨fun x hx => ?_, (queueSource_sorted h.buffer group).imp fun hLe => not_lt.mp hLe, fun k hk => (by cases hk)⟩
      obtain ⟨e, -, -, -, hValue⟩ := hQueue x hx
      exact ⟨_, hValue⟩
  obtain ⟨out, hOut, hMerged⟩ := MergeUnique.drain_spec hGood (Nat.lt_succ_of_le (MergeUnique.total_skip_le hGood))
  refine ⟨out, hOut, hMerged.sorted, fun k => ?_, fun x hx => ?_⟩
  · rw [hMerged.keys]
    constructor
    · rintro ⟨-, s, hs, hk⟩
      obtain ⟨x, hx, rfl⟩ := List.mem_map.mp hk
      obtain rfl | hs := List.mem_cons.mp hs
      · obtain ⟨e, he, hKey, hLater, -⟩ := hDisk x hx
        exact ⟨e, he, hKey, hLater⟩
      cases List.mem_singleton.mp hs
      obtain ⟨e, he, hKey, hLater, -⟩ := hQueue x hx
      exact ⟨e, he, hKey, hLater⟩
    · rintro ⟨e, he, rfl, hLater⟩
      have hAfter := (group_lt_iff hGroup (hSound.ids e he)).mpr hLater
      refine ⟨by simp, ?_⟩
      obtain hSome | ⟨r, hr, hKey⟩ := hHeld e he hLater
      · obtain ⟨v, hv⟩ := Option.isSome_iff_exists.mp hSome
        refine ⟨_, List.mem_cons_self, List.mem_map.mpr ⟨(e.bufferKey, codec.unmarshal v), ?_, rfl⟩⟩
        exact mem_diskSource.mpr ⟨v, hv, formatBufferKey_not_metadata _ _, .inr hAfter, rfl⟩
      · refine ⟨_, List.mem_cons_of_mem _ List.mem_cons_self, List.mem_map.mpr ⟨(r.key, .ok r.event), ?_, hKey⟩⟩
        exact mem_queueSource.mpr ⟨r, hr, hKey ▸ hAfter, rfl⟩
  · obtain ⟨s, hs, hx⟩ := hMerged.origin x hx
    obtain rfl | hs := List.mem_cons.mp hs
    · obtain ⟨e, he, hKey, -, hValue⟩ := hDisk _ hx
      exact ⟨e, he, hKey, .inr (Except.ok.inj hValue)⟩
    cases List.mem_singleton.mp hs
    obtain ⟨e, he, hKey, -, hValue⟩ := hQueue _ hx
    exact ⟨e, he, hKey, .inl (Except.ok.inj hValue)⟩

theorem Sound.removed_lt (hSound : Sound codec h) (hRetention : h.buffer.retention = some (.reading group view))
    (hRemoved : e.bufferKey ∈ h.removed) : e.bufferKey < group := by
  have hBelow := hSound.removed _ hRemoved
  have hLock := hSound.lock
  rw [hRetention] at hLock
  obtain ⟨-, hEmpty | hLess, -⟩ := hLock
  · rw [hEmpty] at hBelow
    exact absurd e.nil_lt_bufferKey hBelow
  · exact lt_of_le_of_lt (not_lt.mp hBelow) hLess

end Scan

section Prune

def PrunesOnly : BufferAction → Prop
  | .delete _ => False
  | .deleteBefore _ => False
  | _ => True

def Spares (b : Buffer) (admitted : List StoreChangeEvent) (bound : Bytes → Prop) : Prop :=
  ∃ e ∈ admitted, b.db[e.bufferKey]?.isSome ∧ bound (formatBufferKey e.clusterTime [])

def PruneLock (b : Buffer) (admitted : List StoreChangeEvent) : Option Retention → Prop
  | some (.deleting _ _) => False
  | some (.bounding beforeKey) => Spares b admitted fun group => ¬ group < beforeKey
  | some (.removing keys) => Spares b admitted fun group => ∀ k ∈ keys, k < group
  | _ => True

structure Pruned (h : History) : Prop where
  floor : pruningFloor h.buffer.db = [] ∨ Spares h.buffer h.admitted fun group => pruningFloor h.buffer.db < group
  lock : PruneLock h.buffer h.admitted h.buffer.retention
  lineage : h.buffer.lineage ≠ []

variable {codec : EventCodec} {h : History}

theorem Spares.mono {b b' : Buffer} {admitted admitted' : List StoreChangeEvent} {bound : Bytes → Prop}
    (h : Spares b admitted bound) (hAdmitted : ∀ e ∈ admitted, e ∈ admitted')
    (hDb : ∀ e ∈ admitted, b.db[e.bufferKey]?.isSome → b'.db[e.bufferKey]?.isSome) : Spares b' admitted' bound := by
  obtain ⟨e, he, hDisk, hBound⟩ := h
  exact ⟨e, hAdmitted e he, hDb e he hDisk, hBound⟩

variable {h' : History}

theorem Pruned.mono (hPruned : Pruned h) (hRetention : h'.buffer.retention = h.buffer.retention)
    (hLineage : h'.buffer.lineage = h.buffer.lineage) (hFloor : pruningFloor h'.buffer.db = pruningFloor h.buffer.db)
    (hAdmitted : ∀ e ∈ h.admitted, e ∈ h'.admitted)
    (hDb : ∀ e ∈ h.admitted, h.buffer.db[e.bufferKey]?.isSome → h'.buffer.db[e.bufferKey]?.isSome) : Pruned h' := by
  refine ⟨?_, ?_, hLineage ▸ hPruned.lineage⟩
  · rw [hFloor]
    exact hPruned.floor.imp_right fun hSpares => hSpares.mono hAdmitted hDb
  · have hLock := hPruned.lock
    rw [hRetention]
    cases hHolder : h.buffer.retention with
    | none => trivial
    | some r =>
      rw [hHolder] at hLock
      cases r with
      | deleting key present => exact hLock
      | bounding beforeKey | removing keys =>
        unfold PruneLock at hLock ⊢
        exact hLock.mono hAdmitted hDb
      | _ => trivial

theorem Pruned.retention (hPruned : Pruned h) {r : Option Retention} (hLock : PruneLock h.buffer h.admitted r) :
    Pruned { h with buffer := { h.buffer with retention := r } } := by
  refine ⟨hPruned.floor, ?_, hPruned.lineage⟩
  cases r with
  | none => trivial
  | some r => cases r <;> exact hLock

theorem formatBufferKey_nil_le (e : StoreChangeEvent) : ¬ e.bufferKey < formatBufferKey e.clusterTime [] := by
  rw [StoreChangeEvent.bufferKey, formatBufferKey_lt_group]
  exact lt_irrefl _

theorem Pruned.commitRemove (hPruned : Pruned h) (hSound : Sound codec h) {keys : List Bytes}
    (hRetention : h.buffer.retention = some (.removing keys)) :
    Pruned ⟨h.buffer.commitRemove keys, h.admitted, keys ++ h.removed⟩ := by
  obtain ⟨hSorted, hKeys⟩ : keys.Pairwise (· < ·) ∧ ∀ k ∈ keys, isMetadataKey k = false := by
    have hLock := hSound.lock
    rw [hRetention] at hLock
    exact hLock
  obtain ⟨e, he, hDisk, hBound⟩ : Spares h.buffer h.admitted fun group => ∀ k ∈ keys, k < group := by
    have hLock := hPruned.lock
    rw [hRetention] at hLock
    exact hLock
  have hDelete : (h.buffer.db.deleteAll keys)[pruningFloorKey]? = h.buffer.db[pruningFloorKey]? := by
    rw [getElem?_deleteAll, if_neg fun hMem => (metadata_ne (hKeys _ hMem)).2 rfl]
  obtain ⟨hGet, -, hNew, hFloor⟩ := advancePruningFloor_spec hDelete (keys.getLast?.getD [])
  have hSurvives : ∀ e ∈ h.admitted, e.bufferKey ∉ keys → h.buffer.db[e.bufferKey]?.isSome →
      (h.buffer.commitRemove keys).db[e.bufferKey]?.isSome := by
    intro e _ hNot hSome
    have hSame := (hGet e.bufferKey (metadata_ne (formatBufferKey_not_metadata _ _)).2).trans
      (getElem?_deleteAll _ _ _)
    rw [if_neg hNot] at hSame
    exact hSame ▸ hSome
  have hSpared : e.bufferKey ∉ keys := fun hMem => formatBufferKey_nil_le e (hBound _ hMem)
  refine ⟨?_, trivial, hPruned.lineage⟩
  obtain hOld | hLast := hFloor
  · rw [show pruningFloor (h.buffer.commitRemove keys).db = pruningFloor h.buffer.db from hOld]
    rw [hOld] at hNew
    obtain hEmpty | ⟨e', he', hDisk', hAbove⟩ := hPruned.floor
    · exact .inl hEmpty
    -- the event above the old floor lies above every deleted key
    refine .inr ⟨e', he', hSurvives e' he' (fun hMem => ?_) hDisk', hAbove⟩
    obtain ⟨last, hLast⟩ := Option.ne_none_iff_exists'.mp (mt List.getLast?_eq_none_iff.mp (List.ne_nil_of_mem hMem))
    rw [hLast] at hNew
    have hLe := (not_lt.mp (getLast?_bounds hSorted hLast hMem)).trans (not_lt.mp hNew)
    exact formatBufferKey_nil_le e' (lt_of_le_of_lt hLe hAbove)
  · rw [show pruningFloor (h.buffer.commitRemove keys).db = keys.getLast?.getD [] from hLast]
    cases hEnd : keys.getLast? with
    | none => exact .inl rfl
    | some last => exact .inr ⟨e, he, hSurvives e he hSpared hDisk, hBound last (List.mem_of_getLast? hEnd)⟩

variable {beforeKey : Bytes}

theorem Pruned.pruneBefore (hPruned : Pruned h) (hSound : Sound codec h) {age : Bool} {b : Buffer}
    (hPrune : h.buffer.pruneBefore beforeKey age = .ok b) : Pruned { h with buffer := b } := by
  obtain rfl | ⟨last, group, bound, hLast, hKey, hGroup, hBound, rfl⟩ := pruneBefore_spec hPrune
  · exact hPruned
  obtain ⟨v, hv⟩ := Option.isSome_iff_exists.mp hLast
  obtain ⟨e, he, rfl, -⟩ := hSound.disk last v hv hKey
  rw [StoreChangeEvent.bufferKey, timestampGroupStart_formatBufferKey (hSound.ids e he)] at hGroup
  cases hGroup
  exact hPruned.retention ⟨e, he, hLast, hBound⟩

theorem Pruned.collect (hPruned : Pruned h) (hRetention : h.buffer.retention = some (.bounding beforeKey)) :
    Pruned { h with buffer := h.buffer.collect beforeKey } := by
  obtain ⟨e, he, hDisk, hBound⟩ : Spares h.buffer h.admitted fun group => ¬ group < beforeKey := by
    have hLock := hPruned.lock
    rw [hRetention] at hLock
    exact hLock
  obtain hNone | hKeys := h.buffer.collect_spec beforeKey
  · rw [hNone]
    exact hPruned.retention trivial
  rw [hKeys]
  refine hPruned.retention ⟨e, he, hDisk, fun k hk => ?_⟩
  obtain ⟨⟨v, hv⟩, -⟩ := mem_eventKeys.mp hk
  have hLess : k < beforeKey := by simpa using (List.mem_filter.mp hv).2
  exact lt_of_lt_of_le hLess (not_lt.mp hBound)

theorem Pruned.openScan (hPruned : Pruned h) (group : Bytes) : Pruned { h with buffer := h.buffer.openScan group } := by
  obtain hNone | ⟨-, hView⟩ := h.buffer.openScan_spec group
  · rw [hNone]
    exact hPruned.retention trivial
  · rw [hView]
    exact hPruned.retention trivial

theorem Pruned.step (hPruned : Pruned h) (hSound : Sound codec h) {a : BufferAction} (hOnly : PrunesOnly a)
    (hStep : h.step codec a = some h') : Pruned h' := by
  cases History.step_spec hStep with
  | write _ hWrite =>
    obtain ⟨-, -, -, value, -, rfl⟩ := write_spec hWrite
    exact hPruned.mono rfl rfl rfl (fun e he => List.mem_cons_of_mem _ he) fun e _ hDisk => hDisk
  | takeBatch | clearBatch | failBatch => exact hPruned.mono rfl rfl rfl (fun e he => he) fun e _ hDisk => hDisk
  | commitBatch =>
    refine hPruned.mono rfl rfl hSound.commitBatch_floor (fun e he => he) fun e _ hDisk => ?_
    exact commitBatch_kept hDisk
  | delete | deleteBefore => exact hOnly.elim
  | commitDelete hRetention =>
    have hLock := hPruned.lock
    rw [hRetention] at hLock
    exact hLock.elim
  | pruneBefore hPrune | pruneExpired hPrune => exact hPruned.pruneBefore hSound hPrune
  | collect hRetention => exact hPruned.collect hRetention
  | commitRemove hRetention => exact hPruned.commitRemove hSound hRetention
  | scanFromLineage | scanFromGroup | closeScan => exact hPruned.retention trivial
  | openScan => exact hPruned.openScan _

theorem Pruned.validatePosition_head (hPruned : Pruned h) (hSound : Sound codec h) (hOpen : h.buffer.closed = false) :
    ∃ group, h.buffer.validatePosition h.buffer.head h.buffer.lineage = .ok group := by
  have hLineage : h.buffer.validateLineage h.buffer.lineage = .ok () := by
    rw [validateLineage, if_neg (by simp [hOpen]), if_neg (by simp [hPruned.lineage])]
  have hSorted := eventKeys_sorted (toList_sorted h.buffer.db)
  rw [validatePosition, hLineage]
  cases hLast : (eventKeys h.buffer.db.toList).getLast? with
  | none =>
    -- nothing on disk, so nothing was pruned
    have hHead : h.buffer.head = [] := by rw [head, hLast]; rfl
    have hFloor : pruningFloor h.buffer.db = [] := by
      obtain hFloor | ⟨e, -, hDisk, -⟩ := hPruned.floor
      · exact hFloor
      obtain ⟨v, hv⟩ := Option.isSome_iff_exists.mp hDisk
      have hMem : e.bufferKey ∈ eventKeys h.buffer.db.toList :=
        mem_eventKeys.mpr ⟨⟨v, mem_toList.mpr hv⟩, formatBufferKey_not_metadata _ _⟩
      rw [List.getLast?_eq_none_iff.mp hLast] at hMem
      cases hMem
    simp [hHead, timestampGroupStart, validateHistoryFloor, hFloor, Except.bind]
  | some last =>
    have hHead : h.buffer.head = last := by rw [head, hLast]; rfl
    obtain ⟨⟨v, hv⟩, hKey⟩ := mem_eventKeys.mp (List.mem_of_getLast? hLast)
    have hv := mem_toList.mp hv
    obtain ⟨e, he, rfl, -⟩ := hSound.disk last v hv hKey
    have hFloor : h.buffer.validateHistoryFloor (formatBufferKey e.clusterTime []) = .ok () := by
      refine if_neg ?_
      rintro ⟨hNonempty, hNot⟩
      refine hNot ?_
      obtain hEmpty | ⟨e', he', hDisk, hAbove⟩ := hPruned.floor
      · exact absurd hEmpty hNonempty
      obtain ⟨v', hv'⟩ := Option.isSome_iff_exists.mp hDisk
      have hMem : e'.bufferKey ∈ eventKeys h.buffer.db.toList :=
        mem_eventKeys.mpr ⟨⟨v', mem_toList.mpr hv'⟩, formatBufferKey_not_metadata _ _⟩
      have hLe := not_lt.mp (getLast?_bounds hSorted hLast hMem)
      have hTime : ¬ e.clusterTime < e'.clusterTime := fun hLt =>
        formatBufferKey_nil_le e' (lt_of_le_of_lt hLe ((formatBufferKey_lt_group _).mpr hLt))
      exact lt_of_lt_of_le hAbove (not_lt.mp (mt (formatBufferKey_lt_group _).mp hTime))
    have hGroup : timestampGroupStart e.bufferKey = some (formatBufferKey e.clusterTime []) :=
      timestampGroupStart_formatBufferKey (hSound.ids e he)
    simp [hHead, hGroup, hFloor, hv, Except.bind, e.nil_lt_bufferKey.ne']

end Prune

end Syntrix.Puller
