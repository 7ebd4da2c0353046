import Syntrix.Lib.KeyValue
import Syntrix.Puller.Subscription

/-! # Coalesced replay

On request a replay merges the events of one document. Events are read from the merged iterators in batches;
within a batch the coalescer keeps at most one event for each document, and the batch is then delivered in
the order of the buffer keys. Live delivery and replays without coalescing are those of the subscription.
-/
namespace Syntrix.Puller

open Lib

section Coalescer

def docKey (collection documentID : Bytes) : Bytes := collection ++ text "/" ++ documentID

abbrev Coalescer := KeyValue Byte StoreChangeEvent

/-- The insert that an insert and a later change of its document make: the fields of the change. -/
def mergedInsert (incoming : StoreChangeEvent) : StoreChangeEvent where
  eventID := incoming.eventID
  database := incoming.database
  mgoColl := incoming.mgoColl
  mgoDocID := incoming.mgoDocID
  opType := .insert
  fullDocument := incoming.fullDocument
  updateDesc := none
  clusterTime := incoming.clusterTime
  txnNumber := incoming.txnNumber
  timestamp := incoming.timestamp
  -- The source leaves the backend of the new event at its zero value.
  backend := []

namespace Coalescer

def merge (existing incoming : StoreChangeEvent) : Option StoreChangeEvent :=
  if incoming.opType = .delete then
    if existing.opType = .insert then none else some incoming
  else if existing.opType = .delete then some incoming
  else if existing.opType = .insert then
    if incoming.opType = .update ∨ incoming.opType = .replace then some (mergedInsert incoming) else some incoming
  else some incoming

def add (pending : Coalescer) (evt : StoreChangeEvent) : Coalescer :=
  let key := docKey evt.mgoColl evt.mgoDocID
  match pending[key]? with
  | none => pending.insert key evt
  | some existing =>
    match merge existing evt with
    | none => pending.erase key
    | some merged => pending.insert key merged

def pendingAt (pending : Coalescer) (keys : List Bytes) : List StoreChangeEvent := keys.filterMap fun key => pending[key]?

/-- A flush gives every pending event once, in the order of the buffer keys. Events with one key, of different
backends, may come in any order. -/
def Flushes (pending : Coalescer) (keys : List Bytes) : Prop :=
  keys.Perm (pending.toList.map Prod.fst) ∧ (pending.pendingAt keys).Pairwise keyLE

instance (pending : Coalescer) (keys : List Bytes) : Decidable (pending.Flushes keys) := inferInstanceAs (Decidable (_ ∧ _))

/-- An event follows a pending insert of its document as an update or a replacement. -/
def Rebuilds (pending : Coalescer) (evt : StoreChangeEvent) : Prop :=
  ∃ existing ∈ pending[docKey evt.mgoColl evt.mgoDocID]?,
    existing.opType = .insert ∧ (evt.opType = .update ∨ evt.opType = .replace)

instance (pending : Coalescer) (evt : StoreChangeEvent) : Decidable (pending.Rebuilds evt) :=
  inferInstanceAs (Decidable (∃ existing ∈ pending[docKey evt.mgoColl evt.mgoDocID]?, _))

variable {pending : Coalescer} {evt existing : StoreChangeEvent}

theorem merge_cases (existing incoming : StoreChangeEvent) :
    merge existing incoming = none ∨ merge existing incoming = some incoming ∨
      merge existing incoming = some (mergedInsert incoming) ∧ existing.opType = .insert ∧
        (incoming.opType = .update ∨ incoming.opType = .replace) := by
  unfold merge
  split_ifs with hDelete hCancel hDeleted hInsert hChange
  · exact .inl rfl
  · exact .inr (.inl rfl)
  · exact .inr (.inl rfl)
  · exact .inr (.inr ⟨rfl, hInsert, hChange⟩)
  all_goals exact .inr (.inl rfl)

/-- After an event has been added, a pending event is that event, was pending before, or is the rebuilt insert. -/
theorem add_pending {key : Bytes} {e : StoreChangeEvent} (h : (pending.add evt)[key]? = some e) :
    e = evt ∨ pending[key]? = some e ∨ e = mergedInsert evt ∧ pending.Rebuilds evt := by
  have hInsert : ∀ x : StoreChangeEvent, (pending.insert (docKey evt.mgoColl evt.mgoDocID) x)[key]? = some e →
      e = x ∨ pending[key]? = some e := by
    intro x hx
    rw [KeyValue.getElem?_insert] at hx
    split at hx
    · exact .inl (Option.some.inj hx).symm
    · exact .inr hx
  unfold add at h
  dsimp only at h
  split at h
  · exact (hInsert evt h).imp_right .inl
  rename_i existing hExisting
  obtain hNone | hKeep | ⟨hMerged, hType⟩ := merge_cases existing evt
  · rw [hNone] at h
    rw [KeyValue.getElem?_erase] at h
    split at h
    · cases h
    · exact .inr (.inl h)
  · rw [hKeep] at h
    exact (hInsert evt h).imp_right .inl
  · rw [hMerged] at h
    obtain rfl | hPending := hInsert _ h
    · exact .inr (.inr ⟨rfl, existing, hExisting, hType⟩)
    · exact .inr (.inl hPending)

theorem add_rebuilds (h : pending.Rebuilds evt) :
    (pending.add evt)[docKey evt.mgoColl evt.mgoDocID]? = some (mergedInsert evt) := by
  obtain ⟨existing, hExisting, hInsert, hChange⟩ := h
  have hPending : pending[docKey evt.mgoColl evt.mgoDocID]? = some existing := hExisting
  have hNotDelete : evt.opType ≠ .delete := by
    obtain hType | hType := hChange <;> rw [hType] <;> decide
  have hNotDeleted : existing.opType ≠ .delete := by
    rw [hInsert]
    decide
  have hMerge : merge existing evt = some (mergedInsert evt) := by
    rw [merge, if_neg hNotDelete, if_neg hNotDeleted, if_pos hInsert, if_pos hChange]
  simp only [add, hPending, hMerge, KeyValue.getElem?_insert, if_true]

/-! ## What a batch does to a document -/

abbrev name (evt : StoreChangeEvent) : Bytes := docKey evt.mgoColl evt.mgoDocID

def image (evt : StoreChangeEvent) : Option Index.StoredDoc := if evt.opType = .delete then none else evt.fullDocument

/-- What a consumer holds of every document. -/
abbrev Held := Bytes → Option Index.StoredDoc

def applied (held : Held) (evt : StoreChangeEvent) : Held := Function.update held (name evt) (image evt)

def coalesced (evts : List StoreChangeEvent) : Coalescer := evts.foldl add ∅

/-- A flush gives every pending event once; their documents differ, so that their order does not matter. -/
def flushed (pending : Coalescer) (held : Held) : Held := fun key => pending[key]?.elim (held key) image

/-- Newest first: the document has been inserted since it was last deleted. -/
def inserted (key : Bytes) : List StoreChangeEvent → Bool
  | [] => false
  | evt :: older =>
    if name evt = key then decide (evt.opType = .insert) || decide (evt.opType ≠ .delete) && inserted key older
    else inserted key older

/-- Newest first: the last event of the document deletes what an event before it had inserted. -/
def cancelled (key : Bytes) : List StoreChangeEvent → Bool
  | [] => false
  | evt :: older => if name evt = key then decide (evt.opType = .delete) && inserted key older else cancelled key older

theorem getElem?_add (pending : Coalescer) (evt : StoreChangeEvent) (key : Bytes) :
    (pending.add evt)[key]? = if name evt = key then pending[key]?.elim (some evt) (merge · evt) else pending[key]? := by
  unfold add
  dsimp only
  split
  · grind [KeyValue.getElem?_insert]
  split
  · grind [KeyValue.getElem?_erase]
  · grind [KeyValue.getElem?_insert]

/-- The pending event of a document shows its last image, and is an insert when the document was inserted since its
last deletion. Without one the document was not touched or its events have cancelled out. -/
def Represents (held : Held) (evts : List StoreChangeEvent) (key : Bytes) : Option StoreChangeEvent → Prop
  | some x => name x = key ∧ image x = evts.foldl applied held key ∧ cancelled key evts.reverse = false ∧
      decide (x.opType = .insert) = inserted key evts.reverse
  | none => inserted key evts.reverse = false ∧
      evts.foldl applied held key = if cancelled key evts.reverse then none else held key

theorem coalesced_represents (held : Held) (evts : List StoreChangeEvent) (key : Bytes) :
    Represents held evts key (coalesced evts)[key]? := by
  induction evts using List.reverseRecOn with
  | nil => exact ⟨rfl, rfl⟩
  | append_singleton evts evt ih =>
    rw [coalesced, List.foldl_concat, ← coalesced, getElem?_add]
    by_cases hKey : name evt = key
    · subst hKey
      rw [if_pos rfl]
      cases hPending : (coalesced evts)[name evt]? with
      | none =>
        rw [hPending] at ih
        simp [Represents, inserted, cancelled, applied, ih.1]
      | some existing =>
        rw [hPending] at ih
        obtain ⟨-, -, -, hInsert⟩ := ih
        -- one case for each rule of the merge
        cases hOld : existing.opType <;> cases hNew : evt.opType
        all_goals simp [merge, mergedInsert, hOld, hNew, Represents, inserted, cancelled, applied, image, ← hInsert]
    · have hSame (held : Held) : applied held evt key = held key := Function.update_of_ne (Ne.symm hKey) ..
      simpa [Represents, inserted, cancelled, hKey, hSame] using ih

/-- A batch leaves a consumer with what the single events would, except for a document that it held before and whose
events have cancelled out. -/
theorem coalescing_keeps_image_iff (evts : List StoreChangeEvent) (held : Held) (key : Bytes) :
    (∀ x ∈ (coalesced evts)[key]?, name x = key) ∧
      (flushed (coalesced evts) held key = evts.foldl applied held key ↔
        held key = none ∨ cancelled key evts.reverse = false) := by
  have hShown := coalesced_represents held evts key
  unfold flushed
  cases hPending : (coalesced evts)[key]? with
  | none =>
    rw [hPending] at hShown
    rw [Option.elim_none, hShown.2]
    cases cancelled key evts.reverse <;> simp
  | some x =>
    rw [hPending] at hShown
    rw [Option.elim_some, hShown.2.1, hShown.2.2.1]
    simp [hShown.1]

end Coalescer

end Coalescer

section Machine

/-- A subscription with the iterator of its coalesced replay: the coalescer, how many events of the batch have
been read and what of the flushed batch is still to be delivered. The markers are those of `Ready` and `Maintain`. -/
structure CoalescedSubscription where
  coalesceOnCatchUp : Bool
  loop : Subscription
  coalescer : Coalescer
  count : Nat
  batch : List StoreChangeEvent
  markers : List Progress

inductive CoalescedAction where
  | loop (a : SubscriptionAction)
  | flush (keys : List Bytes)

def coalescingBatch : Nat := 100

/-- The markers that an action of the loop hands to `Ready` or `Maintain`. -/
def Subscription.passed (s : Subscription) : SubscriptionAction → List Progress
  | .check available =>
    match s.pc with
    | .announcing => if s.monitored && !available then [] else [s.sub.currentPos]
    | _ => []
  | .tick _ =>
    match s.pc with
    | .selecting => [s.sub.currentPos]
    | _ => []
  | _ => []

namespace CoalescedSubscription

variable (s : CoalescedSubscription)

/-- An action without the coalescing iterator. Each replay has an iterator of its own. -/
def uncoalesced (a : SubscriptionAction) : Option CoalescedSubscription :=
  (s.loop.step a).map fun loop =>
    let s := { s with markers := s.markers ++ s.loop.passed a, loop := loop }
    match a with
    | .merge => { s with coalescer := ∅, count := 0, batch := [] }
    | _ => s

/-- Deliver from the flushed batch, or read an event into the next one. A batch is flushed when it is full or
the source is exhausted; the replay ends when a batch stays empty. -/
def read (iters : Iterators) : Option CoalescedSubscription :=
  match s.batch with
  | e :: rest => some { s with loop := s.loop.deliver e, batch := rest }
  | [] =>
    if s.count < coalescingBatch then
      match leastHead (heads s.loop.backends iters) with
      | some h =>
        let loop := { s.loop with pc := .replaying (Function.update iters h.backend h.rest) }
        if s.loop.sub.replayAdmitted h.event then
          some { s with loop := loop, coalescer := s.coalescer.add h.event, count := s.count + 1 }
        else some { s with loop := loop }
      | none => if s.count = 0 then some { s with loop := s.loop.read iters } else none
    else none

def flush (iters : Iterators) (keys : List Bytes) : Option CoalescedSubscription :=
  if s.batch = [] ∧ 0 < s.count ∧ (s.count < coalescingBatch → leastHead (heads s.loop.backends iters) = none) ∧
      s.coalescer.Flushes keys then
    some { s with batch := s.coalescer.pendingAt keys, coalescer := ∅, count := 0 }
  else none

def step : CoalescedAction → Option CoalescedSubscription
  | .loop .read =>
    match s.coalesceOnCatchUp, s.loop.pc with
    | true, .replaying iters => s.read iters
    | _, _ => s.uncoalesced .read
  | .loop a => s.uncoalesced a
  | .flush keys =>
    match s.coalesceOnCatchUp, s.loop.pc with
    | true, .replaying iters => s.flush iters keys
    | _, _ => none

def start (coalesceOnCatchUp monitored : Bool) (backends : List Bytes) (after : Option Progress) (capacity : Nat)
    (earlier unsent : Bytes → List StoreChangeEvent) : CoalescedSubscription where
  coalesceOnCatchUp := coalesceOnCatchUp
  loop := .start monitored backends after capacity earlier unsent
  coalescer := ∅
  count := 0
  batch := []
  markers := []

def incoming : Option StoreChangeEvent :=
  match s.coalesceOnCatchUp, s.loop.pc with
  | true, .replaying iters =>
    if s.batch = [] ∧ s.count < coalescingBatch then
      ((leastHead (heads s.loop.backends iters)).map Head.event).filter s.loop.sub.replayAdmitted
    else none
  | _, _ => none

end CoalescedSubscription

end Machine

end Syntrix.Puller
