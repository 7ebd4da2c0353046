import Syntrix.Puller.Capture
import Syntrix.Puller.Retention

/-! # Checkpoints and captured events

The token on disk never stands for a change that is neither on disk nor removed by retention. It is
stored with the batch of its event, which follows all earlier ones, or alone once no event is queued.
A stream that starts at the present because no token was stored yet breaks this after the first start.
-/
namespace Syntrix.Puller

open Lib OrderCode Buffer List

def Held (h : History) (key : Bytes) : Prop := h.buffer.db[key]?.isSome ∨ key ∈ h.removed

/-- The first changes, counted since capture began, all satisfy a predicate. -/
def Capture.Covers (c : Capture) (n : Nat) (p : Bytes → Prop) : Prop :=
  n ≤ c.changes.length ∧ ∀ j key, j < n → c.changes[j]? = some key → (∃ o ∈ c.origin, o ≤ j) → p key

structure Captured (codec : EventCodec) (position : Bytes → Nat) (c : Capture) : Prop where
  stored : ∀ token, c.history.buffer.db[checkpointKey]? = some token → c.Covers (position token) (Held c.history)
  queued : c.history.buffer.batcher ≠ .stopped → ∀ before r after,
    c.history.buffer.flushing ++ c.history.buffer.pending = before ++ r :: after →
      c.Covers (position r.token) fun key => Held c.history key ∨ ∃ q ∈ before ++ [r], q.key = key
  stream : c.history.buffer.batcher ≠ .stopped → ∀ i ∈ c.cursor,
    c.Covers i fun key => Held c.history key ∨ c.history.buffer.Queued key
  flushed : c.history.buffer.batcher = .committed → ∀ r ∈ c.history.buffer.flushing, Held c.history r.key
  idle : c.history.buffer.batcher = .idle → c.history.buffer.flushing = []
  requests : ∀ r ∈ c.history.buffer.flushing ++ c.history.buffer.pending,
    r.event ∈ c.history.admitted ∧ r.key = r.event.bufferKey ∧ codec.marshal r.event = .ok r.value
  disk : ∀ k v, c.history.buffer.db[k]? = some v → isMetadataKey k = false → Stored codec c.history.admitted k v
  closed : c.history.buffer.batcher = .stopped → c.history.buffer.closed = true
  room : c.history.buffer.pending.length + c.history.buffer.flushing.length ≤ c.history.buffer.queueSize
  deletes : Deletes c.history.buffer.retention
  keys : ∀ key ∈ c.changes, isMetadataKey key = false
  failed : c.failed = true → c.cursor = none

namespace Capture

variable {c c' : Capture} {n : Nat} {p q : Bytes → Prop}

theorem Covers.mono (h : c.Covers n p) (hChanges : c'.changes = c.changes) (hOrigin : c'.origin = c.origin)
    (hp : ∀ key ∈ c.changes, p key → q key) : c'.Covers n q := by
  unfold Covers at h ⊢
  rw [hChanges, hOrigin]
  exact ⟨h.1, fun j key hj hKey hSince => hp key (mem_of_getElem? hKey) (h.2 j key hj hKey hSince)⟩

theorem Covers.zero (c : Capture) (p : Bytes → Prop) : c.Covers 0 p := ⟨Nat.zero_le _, fun _ _ hj => absurd hj (Nat.not_lt_zero _)⟩

theorem covers_of_origin (hn : n ≤ c.changes.length) (hOrigin : ∀ o ∈ c.origin, c.changes.length ≤ o) : c.Covers n p := by
  refine ⟨hn, fun j key hj _ hSince => ?_⟩
  obtain ⟨o, ho, hLe⟩ := hSince
  have hEnd := hOrigin o ho
  omega

theorem Covers.occur (h : c.Covers n p) (key : Bytes) : ({ c with changes := c.changes ++ [key] } : Capture).Covers n p := by
  obtain ⟨hn, h⟩ := h
  constructor
  · simp only [length_append]
    omega
  · intro j k hj hk hSince
    refine h j k hj ?_ hSince
    rwa [getElem?_append_left (by omega)] at hk

theorem Covers.succ (h : c.Covers n p) {key : Bytes} (hKey : c.changes[n]? = some key) (hp : p key) : c.Covers (n + 1) p := by
  obtain ⟨hLt, -⟩ := List.getElem?_eq_some_iff.mp hKey
  refine ⟨hLt, fun j k hj hk hSince => ?_⟩
  obtain hLt | rfl := Nat.lt_succ_iff_lt_or_eq.mp hj
  · exact h.2 j k hLt hk hSince
  · cases hKey.symm.trans hk
    exact hp

end Capture

section Internal

variable {codec : EventCodec} {position : Bytes → Nat} {c : Capture}

theorem checkpoint_commitBatch {b : Buffer} (hKeys : ∀ r ∈ b.flushing, isMetadataKey r.key = false) :
    (∃ before r, b.flushing = before ++ [r] ∧ b.commitBatch.db[checkpointKey]? = some r.token) ∨
      b.commitBatch.db[checkpointKey]? = b.db[checkpointKey]? := by
  obtain ⟨v, hv, hGet⟩ | ⟨-, hGet⟩ := KeyValue.getElem?_setAll b.db (batchEntries b.flushing) checkpointKey
  · obtain hv | hv := mem_append.mp hv
    · obtain ⟨r, hr, hEq⟩ := List.mem_map.mp hv
      exact absurd (congrArg Prod.fst hEq).symm (metadata_ne (hKeys r hr)).1
    obtain ⟨r, hLast, hEq⟩ := Option.map_eq_some_iff.mp (Option.mem_toList.mp hv)
    obtain ⟨before, hBefore⟩ := getLast?_eq_some_iff.mp hLast
    cases hEq
    exact .inl ⟨before, r, hBefore, hGet⟩
  · exact .inr hGet

variable (hCaptured : Captured codec position c)

include hCaptured

theorem Captured.key {r : WriteRequest} (hr : r ∈ c.history.buffer.flushing) : isMetadataKey r.key = false := by
  rw [(hCaptured.requests r (mem_append_left _ hr)).2.1]
  exact formatBufferKey_not_metadata _ _

theorem Captured.takeBatch (hIdle : c.history.buffer.batcher = .idle) :
    Captured codec position { c with history := { c.history with buffer := c.history.buffer.takeBatch } } := by
  have hSame : c.history.buffer.takeBatch.flushing ++ c.history.buffer.takeBatch.pending =
      c.history.buffer.flushing ++ c.history.buffer.pending := by
    rw [hCaptured.idle hIdle]
    exact take_append_drop _ _
  have hRunning : c.history.buffer.batcher ≠ .stopped := by simp [hIdle]
  refine { hCaptured with
    queued := fun _ => hSame ▸ hCaptured.queued hRunning, stream := fun _ i hi => ?_, flushed := by rintro ⟨⟩, idle := by rintro ⟨⟩
    requests := hSame ▸ hCaptured.requests, closed := by rintro ⟨⟩, room := ?_ }
  · refine (hCaptured.stream hRunning i hi).mono rfl rfl fun key _ hKey => hKey.imp_right fun ⟨r, hr, hEq⟩ => ?_
    exact ⟨r, hSame ▸ hr, hEq⟩
  · have hRoom := hCaptured.room
    have hLength := congrArg List.length hSame
    simp only [length_append] at hLength
    change c.history.buffer.takeBatch.pending.length + c.history.buffer.takeBatch.flushing.length ≤ c.history.buffer.queueSize
    omega

theorem Captured.commitBatch (hTaken : c.history.buffer.batcher = .taken) :
    Captured codec position { c with history := { c.history with buffer := c.history.buffer.commitBatch } } := by
  have hRunning : c.history.buffer.batcher ≠ .stopped := by simp [hTaken]
  have hHeld : ∀ k, Held c.history k → Held { c.history with buffer := c.history.buffer.commitBatch } k :=
    fun k hk => hk.imp_left commitBatch_kept
  have hFlushed : ∀ r ∈ c.history.buffer.flushing, Held { c.history with buffer := c.history.buffer.commitBatch } r.key :=
    fun r hr => .inl (commitBatch_flushed hr (hCaptured.key hr))
  refine { hCaptured with
    stored := fun token hToken => ?_, queued := fun _ before r after hSplit => ?_, stream := fun _ i hi => ?_
    flushed := fun _ => hFlushed, idle := by rintro ⟨⟩, disk := ?_, closed := by rintro ⟨⟩ }
  · obtain ⟨before, r, hFlushing, hGet⟩ | hGet := checkpoint_commitBatch fun r hr => hCaptured.key hr
    · -- the changes up to the new token are held already or in the batch
      cases hGet.symm.trans hToken
      have hSplit : c.history.buffer.flushing ++ c.history.buffer.pending = before ++ r :: c.history.buffer.pending := by
        rw [hFlushing, append_assoc]
        rfl
      refine (hCaptured.queued hRunning before r _ hSplit).mono rfl rfl fun key _ hKey => ?_
      obtain hKey | ⟨q, hq, rfl⟩ := hKey
      · exact hHeld key hKey
      · exact hFlushed q (hFlushing ▸ hq)
    · exact (hCaptured.stored token (hGet.symm.trans hToken)).mono rfl rfl fun key _ hKey => hHeld key hKey
  · exact (hCaptured.queued hRunning before r after hSplit).mono rfl rfl fun key _ hKey => hKey.imp_left (hHeld key)
  · exact (hCaptured.stream hRunning i hi).mono rfl rfl fun key _ hKey => hKey.imp_left (hHeld key)
  · exact fun k v => stored_commitBatch (fun r hr => hCaptured.requests r (mem_append_left _ hr)) hCaptured.disk

theorem Captured.clearBatch (hPhase : c.history.buffer.batcher = .committed) :
    Captured codec position { c with history := { c.history with buffer := c.history.buffer.clearBatch } } := by
  have hRunning : c.history.buffer.batcher ≠ .stopped := by simp [hPhase]
  refine { hCaptured with
    queued := fun _ before r after hSplit => ?_, stream := fun _ i hi => ?_, flushed := by rintro ⟨⟩, idle := fun _ => rfl
    requests := fun r hr => hCaptured.requests r (mem_append_right _ hr), closed := by rintro ⟨⟩
    room := (Nat.le_add_right _ _).trans hCaptured.room }
  · have hQueue : c.history.buffer.flushing ++ c.history.buffer.pending =
        (c.history.buffer.flushing ++ before) ++ r :: after := by
      rw [append_assoc, ← hSplit]
      rfl
    refine (hCaptured.queued hRunning _ r after hQueue).mono rfl rfl fun key _ hKey => ?_
    obtain hKey | ⟨q, hq, rfl⟩ := hKey
    · exact .inl hKey
    rw [append_assoc] at hq
    obtain hq | hq := mem_append.mp hq
    · exact .inl (hCaptured.flushed hPhase q hq)
    · exact .inr ⟨q, hq, rfl⟩
  · refine (hCaptured.stream hRunning i hi).mono rfl rfl fun key _ hKey => ?_
    obtain hKey | ⟨q, hq, rfl⟩ := hKey
    · exact .inl hKey
    obtain hq | hq := mem_append.mp hq
    · exact .inl (hCaptured.flushed hPhase q hq)
    · exact .inr ⟨q, hq, rfl⟩

theorem Captured.failBatch :
    Captured codec position { c with history := { c.history with buffer := c.history.buffer.failBatch } } :=
  { hCaptured with
    queued := fun hRunning => absurd rfl hRunning, stream := fun hRunning => absurd rfl hRunning, flushed := by rintro ⟨⟩, idle := by rintro ⟨⟩
    requests := fun r hr => hCaptured.requests r (mem_append_right _ hr), closed := fun _ => rfl
    room := (Nat.le_add_right _ _).trans hCaptured.room }

omit hCaptured in
theorem Retains.held {h h' : History} (hRetains : Retains h h') {k : Bytes} (hk : isMetadataKey k = false) (hHeld : Held h k) :
    Held h' k := by
  obtain hDisk | hRemoved := hHeld
  · obtain hSame | ⟨-, hGone⟩ := hRetains.disk k hk
    · exact .inl (hSame ▸ hDisk)
    · exact .inr hGone
  · exact .inr (hRetains.removed k hRemoved)

theorem Captured.retains {h' : History} (hRetains : Retains c.history h')
    (hDeletes : Deletes h'.buffer.retention) : Captured codec position { c with history := h' } := by
  have hHeld : ∀ k ∈ c.changes, Held c.history k → Held h' k := fun k hk => hRetains.held (hCaptured.keys k hk)
  refine ⟨fun token hToken => ?_, ?_, ?_, ?_, ?_, ?_, ?_, ?_, ?_, hDeletes, hCaptured.keys, hCaptured.failed⟩
  · exact (hCaptured.stored token (hRetains.checkpoint.symm.trans hToken)).mono rfl rfl hHeld
  · rw [hRetains.batcher, hRetains.flushing, hRetains.pending]
    intro hRunning before r after hSplit
    exact (hCaptured.queued hRunning before r after hSplit).mono rfl rfl fun key hKey h => h.imp_left (hHeld key hKey)
  · rw [hRetains.batcher]
    intro hRunning i hi
    refine (hCaptured.stream hRunning i hi).mono rfl rfl fun key hKey h => h.imp (hHeld key hKey) fun ⟨r, hr, hEq⟩ => ?_
    exact ⟨r, by rwa [hRetains.flushing, hRetains.pending], hEq⟩
  · rw [hRetains.batcher, hRetains.flushing]
    exact fun hPhase r hr => hRetains.held (hCaptured.key hr) (hCaptured.flushed hPhase r hr)
  · rw [hRetains.batcher, hRetains.flushing]
    exact hCaptured.idle
  · rw [hRetains.admitted, hRetains.flushing, hRetains.pending]
    exact hCaptured.requests
  · intro k v hv hk
    rw [hRetains.admitted]
    obtain hSame | ⟨hNone, -⟩ := hRetains.disk k hk
    · exact hCaptured.disk k v (hSame.symm.trans hv) hk
    · cases hNone.symm.trans hv
  · rw [hRetains.batcher, hRetains.closed]
    exact hCaptured.closed
  · rw [hRetains.pending, hRetains.flushing, hRetains.queueSize]
    exact hCaptured.room

theorem Captured.internal {h' : History} (hInternal : Internal c.history h')
    (hDeletes : Deletes h'.buffer.retention) : Captured codec position { c with history := h' } := by
  cases hInternal with
  | takeBatch hIdle => exact hCaptured.takeBatch hIdle
  | commitBatch hTaken => exact hCaptured.commitBatch hTaken
  | clearBatch hPhase => exact hCaptured.clearBatch hPhase
  | failBatch => exact hCaptured.failBatch
  | retains hRetains => exact hCaptured.retains hRetains hDeletes

end Internal

section Loop

variable {codec : EventCodec} {position : Bytes → Nat} {mode : BootstrapMode} {c : Capture}

theorem captured_start (codec : EventCodec) (position : Bytes → Nat) (mode : BootstrapMode) (lineage : Bytes)
    (batchSize queueSize : Nat) : Captured codec position (Capture.start mode lineage batchSize queueSize) := by
  have hSound := sound_start codec lineage batchSize queueSize
  have hCheckpoint : (History.start lineage batchSize queueSize).buffer.db[checkpointKey]? = none := by
    simp only [History.start, newBuffer]
    rw [KeyValue.getElem?_insert, if_neg (by decide), KeyValue.getElem?_insert, if_neg (by decide)]
    exact Std.TreeMap.getElem?_emptyc
  refine ⟨fun token hToken => ?_, fun _ before r after hSplit => ?_, (by rintro _ _ ⟨⟩), (by rintro ⟨⟩),
    fun _ => rfl, (by rintro _ ⟨⟩), hSound.disk, (by rintro ⟨⟩), Nat.zero_le _, trivial, (by rintro _ ⟨⟩), fun _ => rfl⟩
  · cases hCheckpoint.symm.trans hToken
  · exact absurd hSplit.symm (by simp [Capture.start, History.start, newBuffer])

variable (hCaptured : Captured codec position c)

include hCaptured

theorem Captured.cursor {cursor : Option Nat} (ready : Bool) {failed : Bool}
    (hCursor : c.history.buffer.batcher ≠ .stopped → ∀ i ∈ cursor,
      c.Covers i fun key => Held c.history key ∨ c.history.buffer.Queued key)
    (hFailed : failed = true → cursor = none) :
    Captured codec position { c with cursor := cursor, ready := ready, failed := failed } :=
  { hCaptured with stream := hCursor, failed := hFailed }

theorem Captured.running (hOpen : c.history.buffer.closed = false) : c.history.buffer.batcher ≠ .stopped := by
  intro hStopped
  cases (hCaptured.closed hStopped).symm.trans hOpen

theorem Captured.fail : Captured codec position c.fail :=
  hCaptured.cursor c.ready (fun _ i hi => by cases hi) fun _ => rfl

theorem Captured.occur (evt : StoreChangeEvent) : Captured codec position { c with changes := c.changes ++ [evt.bufferKey] } :=
  { hCaptured with
    stored := fun token hToken => (hCaptured.stored token hToken).occur _
    queued := fun hRunning before r after hSplit => (hCaptured.queued hRunning before r after hSplit).occur _
    stream := fun hRunning i hi => (hCaptured.stream hRunning i hi).occur _
    keys := forall_mem_push hCaptured.keys (formatBufferKey_not_metadata _ _) }

/-- A stream is opened after a stored checkpoint, from the beginning, or before anything occurred since
capture began. -/
def Anchored (mode : BootstrapMode) (c : Capture) : CaptureAction → Prop
  | .watch => c.history.buffer.db[checkpointKey]? = none → mode = .fromBeginning ∨ ∀ o ∈ c.origin, o = c.changes.length
  | _ => True

theorem Captured.restarted (hFailed : c.failed = false) (hOrigin : ∀ o ∈ c.origin, o = c.changes.length) :
    Captured codec position { c with cursor := some c.changes.length, ready := false, origin := c.origin.or (some c.changes.length) } := by
  have hLast : ∀ o ∈ c.origin.or (some c.changes.length), c.changes.length ≤ o := by
    intro o ho
    cases hFirst : c.origin with
    | none =>
      rw [hFirst] at ho
      cases ho
      exact le_rfl
    | some first =>
      rw [hFirst] at ho hOrigin
      cases ho
      exact (hOrigin _ rfl).ge
  exact { hCaptured with
    stored := fun token hToken => Capture.covers_of_origin (hCaptured.stored token hToken).1 hLast
    queued := fun hRunning before r after hSplit =>
      Capture.covers_of_origin (hCaptured.queued hRunning before r after hSplit).1 hLast
    stream := fun _ i hi => Capture.covers_of_origin (by cases hi; exact le_rfl) hLast
    failed := fun hTrue => by rw [hFailed] at hTrue; cases hTrue }

theorem Captured.watch (hAnchored : Anchored mode c .watch) (hFailed : c.failed = false)
    (hCursor : c.cursor = none) : Captured codec position (c.watch position mode) := by
  have hNot : ∀ cursor : Option Nat, c.failed = true → cursor = none := by simp [hFailed]
  unfold Capture.watch loadCheckpoint
  cases hClosed : c.history.buffer.closed with
  | true => exact hCaptured.cursor c.ready (fun _ i hi => by rw [hCursor] at hi; cases hi) fun _ => hCursor
  | false =>
    cases hCheckpoint : c.history.buffer.db[checkpointKey]? with
    | some token =>
      refine hCaptured.cursor false (fun _ i hi => ?_) (hNot _)
      cases hi
      exact (hCaptured.stored token hCheckpoint).mono rfl rfl fun _ _ h => .inl h
    | none =>
      cases mode with
      | fromBeginning =>
        refine hCaptured.cursor false (fun _ i hi => ?_) (hNot _)
        cases hi
        exact Capture.Covers.zero c _
      | fromNow =>
        obtain hMode | hOrigin := hAnchored hCheckpoint
        · cases hMode
        · exact hCaptured.restarted hFailed hOrigin

omit hCaptured in
theorem append_singleton_split {α : Type} {l before after : List α} {x r : α} (h : l ++ [x] = before ++ r :: after) :
    (before = l ∧ r = x) ∨ ∃ after', l = before ++ r :: after' := by
  rcases eq_nil_or_concat after with rfl | ⟨after', y, rfl⟩
  · obtain ⟨hBefore, hLast⟩ := append_inj' h rfl
    exact .inl ⟨hBefore.symm, (List.cons.inj hLast).1.symm⟩
  · rw [concat_eq_append, ← cons_append, ← append_assoc] at h
    exact .inr ⟨after', (append_inj' h rfl).1⟩

variable {token : Bytes}

theorem Captured.deliver {i : Nat} (hCursor : c.cursor = some i) {evt : StoreChangeEvent}
    (hChange : c.changes[i]? = some evt.bufferKey) (hToken : position token = i + 1) {b : Buffer}
    (hWrite : c.history.buffer.write codec evt token = .ok b) :
    Captured codec position
      { c with history := ⟨b, evt :: c.history.admitted, c.history.removed⟩, cursor := some (i + 1) } := by
  obtain ⟨hOpen, -, hRoom, value, hMarshal, rfl⟩ := write_spec hWrite
  have hRunning := hCaptured.running hOpen
  have hPrior := hCaptured.stream hRunning i hCursor
  -- the new request is the last one, and the stream passed only what is held or queued before it
  have hNext : c.Covers (i + 1) fun key => Held c.history key ∨
      ∃ q ∈ (c.history.buffer.flushing ++ c.history.buffer.pending) ++ [⟨evt.bufferKey, value, token, evt⟩], q.key = key := by
    refine Capture.Covers.succ (hPrior.mono rfl rfl fun key _ h => ?_) hChange
      (.inr ⟨_, mem_append_right _ mem_cons_self, rfl⟩)
    exact h.imp_right fun ⟨q, hq, hEq⟩ => ⟨q, mem_append_left _ hq, hEq⟩
  refine { hCaptured with
    queued := fun _ before r after hSplit => ?_, stream := fun _ i hi => ?_, requests := fun r hr => ?_,
    disk := fun k v hv hk => (hCaptured.disk k v hv hk).cons evt, room := ?_, failed := fun hFailed => ?_ }
  · rw [← append_assoc] at hSplit
    obtain ⟨rfl, rfl⟩ | ⟨after', hOld⟩ := append_singleton_split hSplit
    · rw [show position _ = i + 1 from hToken]
      exact hNext
    · exact hCaptured.queued hRunning before r after' hOld
  · cases hi
    refine hNext.mono rfl rfl fun key _ h => h.imp_right fun ⟨q, hq, hEq⟩ => ⟨q, ?_, hEq⟩
    rwa [append_assoc] at hq
  · rw [← append_assoc] at hr
    rcases mem_push.mp hr with hr | rfl
    · obtain ⟨hEvent, hRest⟩ := hCaptured.requests r hr
      exact ⟨mem_cons_of_mem _ hEvent, hRest⟩
    · exact ⟨mem_cons_self, rfl, hMarshal⟩
  · simp only [length_append, length_singleton]
    omega
  · cases (hCaptured.failed hFailed).symm.trans hCursor

omit hCaptured in
theorem saveCheckpoint_spec {b b' : Buffer} {commits : Bool} (h : b.saveCheckpoint (some token) commits = .ok b') :
    b.closed = false ∧ b.pending.length + b.flushing.length = 0 ∧ b' = { b with db := b.db.insert checkpointKey token } := by
  simp only [saveCheckpoint] at h
  obtain ⟨hOpen, h⟩ := guard_eq_ok h
  split at h
  · cases h
  obtain ⟨hEmpty, h⟩ := guard_eq_ok h
  split at h
  · cases h
    exact ⟨by simpa using hOpen, not_not.mp hEmpty, rfl⟩
  · cases h

theorem Captured.boundary (hCursor : c.cursor = some (position token))
    {commits : Bool} {b : Buffer} (hSave : c.history.buffer.saveCheckpoint (some token) commits = .ok b) :
    Captured codec position { c with history := { c.history with buffer := b }, ready := true } := by
  obtain ⟨hOpen, hEmpty, rfl⟩ := saveCheckpoint_spec hSave
  have hRunning := hCaptured.running hOpen
  have hGet : ∀ k, isMetadataKey k = false → (c.history.buffer.db.insert checkpointKey token)[k]? = c.history.buffer.db[k]? := by
    intro k hk
    rw [KeyValue.getElem?_insert, if_neg (metadata_ne hk).1]
  have hHeld : ∀ k, isMetadataKey k = false → Held c.history k →
      Held { c.history with buffer := { c.history.buffer with db := c.history.buffer.db.insert checkpointKey token } } k :=
    fun k hk h => h.imp_left fun hDisk => (hGet k hk) ▸ hDisk
  have hNone : ∀ k, ¬ c.history.buffer.Queued k := by
    rintro k ⟨r, hr, -⟩
    have hLength : (c.history.buffer.flushing ++ c.history.buffer.pending).length = 0 := by
      rw [length_append]
      omega
    rw [eq_nil_of_length_eq_zero hLength] at hr
    cases hr
  refine { hCaptured with
    stored := fun token' hToken => ?_, queued := fun _ before r after hSplit => ?_, stream := fun _ i hi => ?_
    flushed := fun hPhase r hr => ?_, disk := fun k v hv hk => hCaptured.disk k v ((hGet k hk).symm.trans hv) hk }
  · have hNew : (c.history.buffer.db.insert checkpointKey token)[checkpointKey]? = some token := by
      rw [KeyValue.getElem?_insert, if_pos rfl]
    cases hNew.symm.trans hToken
    refine (hCaptured.stream hRunning _ hCursor).mono rfl rfl fun key hKey h => hHeld key (hCaptured.keys key hKey) ?_
    exact h.resolve_right (hNone key)
  · exact (hCaptured.queued hRunning before r after hSplit).mono rfl rfl fun key hKey => .imp_left (hHeld key (hCaptured.keys key hKey))
  · exact (hCaptured.stream hRunning i hi).mono rfl rfl fun key hKey => .imp_left (hHeld key (hCaptured.keys key hKey))
  · exact hHeld _ (hCaptured.key hr) (hCaptured.flushed hPhase r hr)

theorem Captured.close :
    Captured codec position { c with history := { c.history with buffer := { c.history.buffer with closed := true } } } :=
  { hCaptured with closed := fun _ => rfl }

theorem Captured.crash :
    Captured codec position { c with
      history := { c.history with buffer := c.history.buffer.restart }, cursor := none, ready := false, failed := false } := by
  refine { hCaptured with
    queued := fun _ before r after hSplit => ?_, stream := by rintro _ _ ⟨⟩, flushed := by rintro ⟨⟩, idle := fun _ => rfl
    requests := by rintro _ ⟨⟩, closed := by rintro ⟨⟩, room := Nat.zero_le _, deletes := trivial, failed := by rintro ⟨⟩ }
  exact absurd hSplit.symm (by simp [restart])

theorem Captured.step {a : CaptureAction} (hAnchored : Anchored mode c a) {c' : Capture}
    (hStep : c.step codec position mode a = some c') : Captured codec position c' := by
  cases Capture.step_spec hStep with
  | @occur evt => exact hCaptured.occur evt
  | watch hFailed hCursor => exact hCaptured.watch hAnchored hFailed hCursor
  | deliver hCursor hChange hToken hWrite => exact hCaptured.deliver hCursor hChange hToken hWrite
  | boundary hCursor hSave => exact hCaptured.boundary hCursor hSave
  | fail => exact hCaptured.fail
  | disconnect => exact hCaptured.cursor c.ready (fun _ i hi => by cases hi) fun _ => rfl
  | close => exact hCaptured.close
  | crash => exact hCaptured.crash
  | internal hWrite hNext =>
    obtain ⟨hInternal, hDeletes⟩ := internal_step hCaptured.deletes hWrite hNext
    exact hCaptured.internal hInternal hDeletes

end Loop

section Failure

variable {codec : EventCodec} {position : Bytes → Nat} {mode : BootstrapMode} {c : Capture}

/-- A batch failed, or the batch of a boundary, which is saved only while nothing is queued. -/
def CommitFailed (c : Capture) : Prop :=
  c.history.buffer.batcher = .stopped ∨
    c.failed = true ∧ c.history.buffer.pending = [] ∧ c.history.buffer.flushing = []

def NothingLater (c c' : Capture) : Prop :=
  c'.history.admitted = c.history.admitted ∧
    ∀ k, isMetadataKey k = false → c'.history.buffer.db[k]?.isSome → c.history.buffer.db[k]?.isSome

theorem NothingLater.refl (c : Capture) : NothingLater c c := ⟨rfl, fun _ _ h => h⟩

theorem NothingLater.trans {c₁ c₂ c₃ : Capture} (h : NothingLater c₁ c₂) (h' : NothingLater c₂ c₃) : NothingLater c₁ c₃ :=
  ⟨h'.1.trans h.1, fun k hk hSome => h.2 k hk (h'.2 k hk hSome)⟩

theorem commitFailed_internal (hFailed : CommitFailed c) {h' : History} (hInternal : Internal c.history h') :
    CommitFailed { c with history := h' } ∧ NothingLater c { c with history := h' } := by
  cases hInternal with
  | takeBatch hIdle hPending =>
    obtain hStopped | ⟨-, hEmpty, -⟩ := hFailed
    · cases hIdle.symm.trans hStopped
    · exact absurd hEmpty hPending
  | commitBatch hTaken =>
    obtain hStopped | ⟨hHalted, hPending, hFlushing⟩ := hFailed
    · cases hTaken.symm.trans hStopped
    refine ⟨.inr ⟨hHalted, hPending, hFlushing⟩, rfl, fun k _ hSome => ?_⟩
    have hSame : c.history.buffer.commitBatch.db = c.history.buffer.db := by
      rw [Buffer.commitBatch, hFlushing]
      rfl
    exact hSame ▸ hSome
  | clearBatch hPhase =>
    obtain hStopped | ⟨hHalted, hPending, -⟩ := hFailed
    · cases hPhase.symm.trans hStopped
    · exact ⟨.inr ⟨hHalted, hPending, rfl⟩, NothingLater.refl _⟩
  | failBatch => exact ⟨.inl rfl, NothingLater.refl _⟩
  | retains hRetains =>
    refine ⟨?_, hRetains.admitted, fun k hk hSome => ?_⟩
    · unfold CommitFailed
      rw [hRetains.batcher, hRetains.pending, hRetains.flushing]
      exact hFailed
    · obtain hSame | ⟨hNone, -⟩ := hRetains.disk k hk
      · exact hSame ▸ hSome
      · rw [hNone] at hSome
        cases hSome

theorem commitFailed_step (hCaptured : Captured codec position c) (hFailed : CommitFailed c) {a : CaptureAction}
    (hCrash : a ≠ .crash) {c' : Capture} (hStep : c.step codec position mode a = some c') :
    CommitFailed c' ∧ NothingLater c c' := by
  -- a failed capture has no stream, and a stopped batcher has closed the buffer
  have hStream : ∀ i, c.cursor = some i → c.history.buffer.closed = true := by
    intro i hCursor
    obtain hStopped | ⟨hHalted, -⟩ := hFailed
    · exact hCaptured.closed hStopped
    · cases (hCaptured.failed hHalted).symm.trans hCursor
  cases Capture.step_spec hStep with
  | occur | disconnect | close => exact ⟨hFailed, NothingLater.refl _⟩
  | watch hNot =>
    obtain hStopped | ⟨hHalted, -⟩ := hFailed
    · have hWatch : c.watch position mode = { c with failed := true } := by
        simp [Capture.watch, loadCheckpoint, hCaptured.closed hStopped]
      rw [hWatch]
      exact ⟨.inl hStopped, NothingLater.refl _⟩
    · cases hNot.symm.trans hHalted
  | deliver hCursor _ _ hWrite =>
    have hOpen := (write_spec hWrite).1
    cases (hStream _ hCursor).symm.trans hOpen
  | boundary hCursor hSave =>
    have hOpen := (saveCheckpoint_spec hSave).1
    cases (hStream _ hCursor).symm.trans hOpen
  | fail => exact ⟨hFailed.imp_right fun h => ⟨rfl, h.2⟩, NothingLater.refl _⟩
  | crash => exact absurd rfl hCrash
  | internal hWrite hNext => exact commitFailed_internal hFailed (internal_step hCaptured.deletes hWrite hNext).1

end Failure

section Runs

variable (codec : EventCodec) (position : Bytes → Nat) (mode : BootstrapMode)

structure Faithful (c : Capture) : Prop where
  /-- Every change since capture began, up to the stored checkpoint, is an event on disk or was removed. -/
  stored : ∀ token, c.history.buffer.db[checkpointKey]? = some token → ∀ j key, j < position token →
    c.changes[j]? = some key → (∃ o ∈ c.origin, o ≤ j) →
      key ∈ c.history.removed ∨ ∃ v, c.history.buffer.db[key]? = some v ∧ Stored codec c.history.admitted key v
  /-- The stream passes only changes that are held or queued, as long as batches are committed. -/
  passed : c.history.buffer.batcher ≠ .stopped → ∀ i ∈ c.cursor, ∀ j key, j < i → c.changes[j]? = some key →
    (∃ o ∈ c.origin, o ≤ j) → Held c.history key ∨ c.history.buffer.Queued key
  room : c.history.buffer.pending.length + c.history.buffer.flushing.length ≤ c.history.buffer.queueSize
  /-- After a failed commit nothing is admitted or stored until the process starts again. -/
  failed : CommitFailed c → ∀ actions c', (∀ a ∈ actions, a ≠ .crash) →
    Runs (Capture.step codec position mode) (Anchored mode) c actions c' → NothingLater c c'

variable {codec position mode}

theorem anchored_captures_faithful {lineage : Bytes} {batchSize queueSize : Nat} {actions : List CaptureAction} {c : Capture}
    (hRun : Runs (Capture.step codec position mode) (Anchored mode) (Capture.start mode lineage batchSize queueSize) actions c) :
    Faithful codec position mode c := by
  have hCaptured : Captured codec position c := hRun.invariant (captured_start codec position mode lineage batchSize queueSize)
    fun _ _ _ hCaptured hAnchored hStep => hCaptured.step hAnchored hStep
  constructor
  · intro token hToken j key hj hKey hSince
    obtain hSome | hRemoved := (hCaptured.stored token hToken).2 j key hj hKey hSince
    · obtain ⟨v, hv⟩ := Option.isSome_iff_exists.mp hSome
      exact .inr ⟨v, hv, hCaptured.disk key v hv (hCaptured.keys key (List.mem_of_getElem? hKey))⟩
    · exact .inl hRemoved
  · exact fun hRunning i hi => (hCaptured.stream hRunning i hi).2
  · exact hCaptured.room
  · intro hFailed later c' hNoCrash hLater
    have hAll : Captured codec position c' ∧ CommitFailed c' ∧ NothingLater c c' := by
      refine (hLater.restrict hNoCrash).invariant (I := fun c' => Captured codec position c' ∧ CommitFailed c' ∧ NothingLater c c')
        ⟨hCaptured, hFailed, NothingLater.refl c⟩ ?_
      rintro s a s' ⟨hs, hsFailed, hsLater⟩ ⟨hAnchored, hNot⟩ hStep
      obtain ⟨hNext, hNothing⟩ := commitFailed_step hs hsFailed hNot hStep
      exact ⟨hs.step hAnchored hStep, hNext, hsLater.trans hNothing⟩
    exact hAll.2.2

/-- The deletion of a document at a time, and a codec for such events. -/
def deletionAt (t : UInt32) : StoreChangeEvent where
  eventID := text "e"
  database := []
  mgoColl := text "docs"
  mgoDocID := text "d"
  opType := .delete
  fullDocument := none
  updateDesc := none
  clusterTime := ⟨t, 1⟩
  txnNumber := none
  timestamp := 0
  backend := text "b"

def deletionCodec : EventCodec := ⟨fun _ => .ok [], fun _ => .ok (deletionAt 0), fun _ => deletionAt 0, fun _ _ _ => rfl⟩

/-- Capture crashes before its first token is stored and starts again at the present. Tokens are counted
by their length. -/
def lostFirstChange : List CaptureAction :=
  [.watch, .occur (deletionAt 1), .deliver (deletionAt 1) (text "1"), .crash, .watch,
    .occur (deletionAt 2), .deliver (deletionAt 2) (text "22"), .internal .takeBatch, .internal .commitBatch]

theorem restart_skips_first_change : ∃ c : Capture,
    Runs (Capture.step deletionCodec List.length .fromNow) (fun _ _ => True) (Capture.start .fromNow (text "l") 0 0) lostFirstChange c ∧
      c.history.buffer.db[checkpointKey]? = some (text "22") ∧ ¬ Faithful deletionCodec List.length .fromNow c := by
  obtain ⟨c, hRun, hToken, hChange, hOrigin, hRemoved, hDisk⟩ : ∃ c,
      Runs (Capture.step deletionCodec List.length .fromNow) (fun _ _ => True) (Capture.start .fromNow (text "l") 0 0) lostFirstChange c ∧
      c.history.buffer.db[checkpointKey]? = some (text "22") ∧ c.changes[0]? = some (deletionAt 1).bufferKey ∧
      c.origin = some 0 ∧ c.history.removed = [] ∧ c.history.buffer.db[(deletionAt 1).bufferKey]? = none :=
    Runs.exists_of_foldlM (by decide +kernel)
  refine ⟨c, hRun, hToken, fun hFaithful => ?_⟩
  obtain hGone | ⟨v, hv, -⟩ := hFaithful.stored _ hToken 0 _ (by decide) hChange ⟨0, hOrigin, le_rfl⟩
  · rw [hRemoved] at hGone
    cases hGone
  · cases hDisk.symm.trans hv

/-- From the beginning the change is delivered again; then the stream breaks and resumes. -/
def redeliveredChange : List CaptureAction :=
  [.watch, .occur (deletionAt 1), .deliver (deletionAt 1) (text "1"), .crash, .watch, .deliver (deletionAt 1) (text "1"),
    .internal .takeBatch, .internal .commitBatch, .internal .clearBatch, .disconnect, .watch, .occur (deletionAt 2),
    .deliver (deletionAt 2) (text "22"), .internal .takeBatch, .internal .commitBatch]

theorem anchored_captures_faithful_from_beginning : ∃ c : Capture,
    c.history.buffer.db[checkpointKey]? = some (text "22") ∧ Faithful deletionCodec List.length .fromBeginning c := by
  have hEnd : (redeliveredChange.foldlM (Capture.step deletionCodec List.length .fromBeginning)
      (Capture.start .fromBeginning (text "l") 0 0)).map
        (fun c => (c.history.buffer.db[checkpointKey]? : Option Bytes)) = some (some (text "22")) := by
    decide +kernel
  obtain ⟨c, hFold, hToken⟩ := Option.map_eq_some_iff.mp hEnd
  refine ⟨c, hToken, anchored_captures_faithful (Runs.of_foldlM (fun a _ s => ?_) hFold)⟩
  cases a with
  | watch => exact fun _ => .inl rfl
  | _ => trivial

end Runs

end Syntrix.Puller
