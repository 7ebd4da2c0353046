import Syntrix.Lib.Strings
import Syntrix.Model.TypedValue
import Syntrix.Puller.Buffer
import Syntrix.Puller.Subscription

/-! # Normalizing changes

A change of a source becomes an event. The ID of the event is made of the cluster time and of a hash of
the collection and the document, and the buffer and the subscribers take it for the identity of the
change. Changes are told apart that way exactly when no two of one cluster time are of one document.
-/
namespace Syntrix.Puller

open Lib Strings Model Index List Option

/-- The key of a document by the types that are told apart; other types are given as they are printed. -/
inductive DocumentKey where
  | objectID (id : Bytes)
  | string (id : Bytes)
  | int (id : Int64)
  | other (printed : Bytes)
  /-- A key without an ID, as it is marshalled. -/
  | compound (data : Bytes)

structure RawEvent (Bson : Type) where
  operationType : Bytes
  clusterTime : ClusterTime
  txnNumber : Option Int64
  fullDocument : Option Bson
  updateDescription : Option Bson
  documentKey : Option DocumentKey
  coll : Bytes

/-- The hash, and the conversions of documents by the driver of the database. -/
structure Driver (Bson : Type) where
  sha256 : Bytes → Bytes
  storedDoc : Bson → Option StoredDoc
  convertUpdateDescription : Bson → UpdateDescription

inductive NormalizeError where
  | unknownOperation (operationType : Bytes)
  | documentKeyNil
  | fullDocument
  | fullDocumentMissing (opType : StoreOperationType)
deriving DecidableEq

def operationType (s : Bytes) : Option StoreOperationType :=
  if s = text "insert" then some .insert
  else if s = text "update" then some .update
  else if s = text "replace" then some .replace
  else if s = text "delete" then some .delete
  else none

variable {Bson : Type} (driver : Driver Bson)

def extractDocumentID : DocumentKey → Bytes
  | .objectID id => hexString id
  | .string id => id
  | .int id => formatInt id
  | .other printed => printed
  | .compound data => hexString ((driver.sha256 data).take 16)

def documentName (coll docID : Bytes) : Bytes := coll ++ text "/" ++ docID

def generateEventID (ct : ClusterTime) (coll docID : Bytes) : Bytes :=
  uintToString ct.t ++ [dash] ++ uintToString ct.i ++ [dash] ++ hexString ((driver.sha256 (documentName coll docID)).take 8)

def normalize (now : Int64) (raw : RawEvent Bson) : Except NormalizeError StoreChangeEvent :=
  match operationType raw.operationType with
  | none => .error (.unknownOperation raw.operationType)
  | some opType =>
    match raw.documentKey with
    | none => .error .documentKeyNil
    | some key =>
      let docID := extractDocumentID driver key
      match raw.fullDocument.mapM driver.storedDoc with
      | none => .error .fullDocument
      | some fullDoc =>
        if (opType = .update ∨ opType = .replace) ∧ fullDoc.isNone then .error (.fullDocumentMissing opType)
        else .ok
          { eventID := generateEventID driver raw.clusterTime raw.coll docID
            database := (fullDoc.map StoredDoc.database).getD []
            mgoColl := raw.coll
            mgoDocID := docID
            opType := opType
            fullDocument := fullDoc
            updateDesc := raw.updateDescription.map driver.convertUpdateDescription
            clusterTime := raw.clusterTime
            txnNumber := raw.txnNumber
            timestamp := now
            backend := [] }

/-- The events of a stream as they are captured, each with the time it was seen. -/
def captureAll (backend : Bytes) (stream : List (Int64 × RawEvent Bson)) : Except NormalizeError (List StoreChangeEvent) :=
  stream.mapM fun x => (normalize driver x.1 x.2).map fun e => { e with backend := backend }

section IDs

theorem dash_notMem_uintToString (v : UInt32) : dash ∉ uintToString v := by
  rw [uintToString]
  split
  · decide
  intro h
  have hDigit := decimalLoop_isDigit dash h
  cases hDigit

theorem uintToString_injective {v w : UInt32} (h : uintToString v = uintToString w) : v = w := by
  have hFormat : formatUint32 v = formatUint32 w := by rw [formatUint32, formatUint32, h]
  have hParse := parseUint32_formatUint32 v
  rw [hFormat, parseUint32_formatUint32] at hParse
  exact (some.inj hParse).symm

theorem generateEventID_inj {ct ct' : ClusterTime} {coll docID coll' docID' : Bytes}
    (h : generateEventID driver ct coll docID = generateEventID driver ct' coll' docID') :
    ct = ct' ∧ (driver.sha256 (documentName coll docID)).take 8 = (driver.sha256 (documentName coll' docID')).take 8 := by
  have hCut : ∀ (ct : ClusterTime) (coll docID : Bytes), cutDash (generateEventID driver ct coll docID) =
      some (uintToString ct.t, uintToString ct.i ++ [dash] ++ hexString ((driver.sha256 (documentName coll docID)).take 8)) := by
    intro ct coll docID
    rw [← cutDash_append (dash_notMem_uintToString ct.t), generateEventID]
    simp only [append_assoc]
  have hFirst := congrArg cutDash h
  rw [hCut, hCut, some.injEq, Prod.mk.injEq] at hFirst
  obtain ⟨hT, hRest⟩ := hFirst
  have hSecond := congrArg cutDash hRest
  rw [cutDash_append (dash_notMem_uintToString _), cutDash_append (dash_notMem_uintToString _), some.injEq,
    Prod.mk.injEq] at hSecond
  obtain ⟨hI, hHash⟩ := hSecond
  exact ⟨by rw [ClusterTime.mk.injEq]; exact ⟨uintToString_injective hT, uintToString_injective hI⟩,
    hexString_injective hHash⟩

end IDs

section Identity

/-- The events a subscriber gets when they are delivered one after another. -/
def sendAll : Subscriber → List StoreChangeEvent → List StoreChangeEvent
  | _, [] => []
  | s, e :: events => if s.shouldSend e then e :: sendAll (s.updatePosition e) events else sendAll s events

/-- The store with the values of the events, written one after another under their keys. -/
def bufferAll (events : List StoreChangeEvent) (value : Nat → Bytes) : Database :=
  KeyValue.setAll ∅ (events.zipIdx.map fun x => (x.1.bufferKey, value x.2))

/-- Changes are told apart: by ID and by key, so that none overwrites another and a subscriber without a position gets
them all. -/
structure Identified (events : List StoreChangeEvent) : Prop where
  ids : events.Pairwise fun a b => a.eventID ≠ b.eventID
  keys : events.Pairwise fun a b => a.bufferKey ≠ b.bufferKey
  buffered : ∀ (value : Nat → Bytes) (i : Nat) (e : StoreChangeEvent), events[i]? = some e →
    (bufferAll events value)[e.bufferKey]? = some (value i)
  sent : ∀ s : Subscriber, (∀ e ∈ events, s.lastClusterTime e.backend = none) → sendAll s events = events

variable {driver} {backend : Bytes} {stream : List (Int64 × RawEvent Bson)} {events : List StoreChangeEvent}

theorem normalize_eventID {now : Int64} {raw : RawEvent Bson} {e : StoreChangeEvent} (h : normalize driver now raw = .ok e) :
    e.eventID = generateEventID driver e.clusterTime e.mgoColl e.mgoDocID := by
  unfold normalize at h
  split at h
  · cases h
  split at h
  · cases h
  split at h
  · cases h
  split at h
  · cases h
  · cases h
    rfl

theorem captureAll_eventID (h : captureAll driver backend stream = .ok events) :
    ∀ e ∈ events, e.eventID = generateEventID driver e.clusterTime e.mgoColl e.mgoDocID ∧ e.backend = backend := by
  induction stream generalizing events with
  | nil =>
    cases h
    simp
  | cons x stream ih =>
    rw [captureAll, mapM_cons] at h
    obtain ⟨e, hFirst, hRest⟩ := bind_eq_ok h
    obtain ⟨later, hLater, hEvents⟩ := bind_eq_ok hRest
    obtain ⟨raw, hRaw, rfl⟩ := map_eq_ok hFirst
    cases hEvents
    have hID := normalize_eventID hRaw
    rw [forall_mem_cons]
    exact ⟨⟨hID, rfl⟩, ih hLater⟩

theorem bufferAll_get (hKeys : events.Pairwise fun a b => a.bufferKey ≠ b.bufferKey) (value : Nat → Bytes) {i : Nat}
    {e : StoreChangeEvent} (he : events[i]? = some e) : (bufferAll events value)[e.bufferKey]? = some (value i) := by
  have hEntry : (e.bufferKey, value i) ∈ events.zipIdx.map fun x => (x.1.bufferKey, value x.2) :=
    List.mem_map.mpr ⟨(e, i), mk_mem_zipIdx_iff_getElem?.mpr he, rfl⟩
  obtain ⟨v, hv, hGet⟩ | ⟨hNot, -⟩ := KeyValue.getElem?_setAll (∅ : Database)
    (events.zipIdx.map fun x => (x.1.bufferKey, value x.2)) e.bufferKey
  · obtain ⟨⟨e', j⟩, hMem, hEq⟩ := List.mem_map.mp hv
    obtain ⟨hKey, rfl⟩ := Prod.mk.inj hEq
    obtain ⟨hi, rfl⟩ := List.getElem?_eq_some_iff.mp he
    obtain ⟨hj, rfl⟩ := List.getElem?_eq_some_iff.mp (mk_mem_zipIdx_iff_getElem?.mp hMem)
    have hPairs := pairwise_iff_getElem.mp hKeys
    rcases lt_trichotomy i j with hLt | rfl | hLt
    · exact absurd hKey.symm (hPairs i j hi hj hLt)
    · exact hGet
    · exact absurd hKey (hPairs j i hj hi hLt)
  · exact absurd (List.mem_map_of_mem hEntry) hNot

theorem sendAll_all {s : Subscriber} (hIds : events.Pairwise fun a b => a.eventID ≠ b.eventID)
    (hOrdered : events.Pairwise fun a b => a.clusterTime ≤ b.clusterTime) (hBackend : ∀ e ∈ events, e.backend = backend)
    (hLast : ∀ t, s.lastClusterTime backend = some t →
      ∀ e ∈ events, t ≤ e.clusterTime ∧ e.eventID ∉ s.deliveredIDs backend) : sendAll s events = events := by
  induction events generalizing s with
  | nil => rfl
  | cons e events ih =>
    obtain ⟨hFirst, hIds⟩ := pairwise_cons.mp hIds
    obtain ⟨hEarlier, hOrdered⟩ := pairwise_cons.mp hOrdered
    obtain ⟨hThis, hBackend⟩ := forall_mem_cons.mp hBackend
    have hSend : s.shouldSend e = true := by
      rw [Subscriber.shouldSend, hThis]
      cases hTime : s.lastClusterTime backend with
      | none => rfl
      | some t =>
        obtain ⟨hLe, hNew⟩ := hLast t hTime e mem_cons_self
        dsimp only
        rw [if_neg (not_lt.mpr hLe)]
        split
        · rfl
        · exact decide_eq_true hNew
    rw [sendAll, if_pos hSend]
    refine congrArg (e :: ·) (ih hIds hOrdered hBackend fun t ht e' he' => ?_)
    simp only [Subscriber.updatePosition, hThis, Function.update_self, some.injEq] at ht ⊢
    subst ht
    refine ⟨hEarlier e' he', ?_⟩
    rw [mem_cons, not_or]
    refine ⟨(hFirst e' he').symm, ?_⟩
    split
    · rename_i hTime
      exact (hLast _ hTime e' (mem_cons_of_mem _ he')).2
    · exact not_mem_nil

end Identity

/-- The captured changes of a stream are told apart exactly when no two of one cluster time are of one document, as named
by its collection and ID. -/
theorem captured_identified_iff {backend : Bytes} {stream : List (Int64 × RawEvent Bson)} {events : List StoreChangeEvent}
    (h : captureAll driver backend stream = .ok events)
    (hOrdered : events.Pairwise fun a b => a.clusterTime ≤ b.clusterTime)
    (hSha : ∀ a ∈ events, ∀ b ∈ events,
      (driver.sha256 (documentName a.mgoColl a.mgoDocID)).take 8 = (driver.sha256 (documentName b.mgoColl b.mgoDocID)).take 8 →
        documentName a.mgoColl a.mgoDocID = documentName b.mgoColl b.mgoDocID) :
    Identified events ↔ events.Pairwise fun a b =>
      ¬ (a.clusterTime = b.clusterTime ∧ documentName a.mgoColl a.mgoDocID = documentName b.mgoColl b.mgoDocID) := by
  have hIDs := captureAll_eventID h
  constructor
  · intro hIdentified
    refine hIdentified.ids.imp_of_mem ?_
    rintro a b ha hb hNe ⟨hTime, hName⟩
    refine hNe ?_
    rw [(hIDs a ha).1, (hIDs b hb).1, generateEventID, generateEventID, hTime, hName]
  · intro hApart
    have hDistinct : events.Pairwise fun a b => a.eventID ≠ b.eventID := by
      refine hApart.imp_of_mem ?_
      intro a b ha hb hNot hSame
      rw [(hIDs a ha).1, (hIDs b hb).1] at hSame
      obtain ⟨hTime, hHash⟩ := generateEventID_inj driver hSame
      exact hNot ⟨hTime, hSha a ha b hb hHash⟩
    have hKeys : events.Pairwise fun a b => a.bufferKey ≠ b.bufferKey :=
      hDistinct.imp fun hNe hKey => hNe (formatBufferKey_injective hKey).2
    refine ⟨hDistinct, hKeys, fun value i e he => bufferAll_get hKeys value he, fun s hs => ?_⟩
    refine sendAll_all hDistinct hOrdered (fun e he => (hIDs e he).2) fun t ht e he => ?_
    rw [← (hIDs e he).2, hs e he] at ht
    cases ht

section Transactions

def plainDriver : Driver Unit where
  sha256 s := s
  storedDoc _ := some ⟨text "db", text "c/a", text "c", 0, 0, 1, [], false⟩
  convertUpdateDescription _ := ⟨[], [], []⟩

/-- An update of a document in the only transaction of its cluster time. -/
def txnUpdate (id : Bytes) : Int64 × RawEvent Unit :=
  (0, ⟨text "update", ⟨1, 1⟩, some 1, some (), none, some (.string id), text "c"⟩)

def txnEvent (id : Bytes) : StoreChangeEvent where
  eventID := generateEventID plainDriver ⟨1, 1⟩ (text "c") id
  database := text "db"
  mgoColl := text "c"
  mgoDocID := id
  opType := .update
  fullDocument := some ⟨text "db", text "c/a", text "c", 0, 0, 1, [], false⟩
  updateDesc := none
  clusterTime := ⟨1, 1⟩
  txnNumber := some 1
  timestamp := 0
  backend := text "main"

theorem captureAll_txn (id id' : Bytes) :
    captureAll plainDriver (text "main") [txnUpdate id, txnUpdate id'] = .ok [txnEvent id, txnEvent id'] := rfl

theorem captured_identified_documents : Identified [txnEvent (text "a"), txnEvent (text "b")] := by
  refine (captured_identified_iff plainDriver (captureAll_txn (text "a") (text "b")) ?_ ?_).mpr ?_
  · simp [txnEvent]
  · simp [txnEvent, plainDriver, documentName, text]
  · simp [txnEvent, documentName, text]

/-- Two updates of one document in one transaction get one ID. -/
theorem captured_transaction_merged :
    captureAll plainDriver (text "main") [txnUpdate (text "a"), txnUpdate (text "a")] =
        .ok [txnEvent (text "a"), txnEvent (text "a")] ∧
      ¬ Identified [txnEvent (text "a"), txnEvent (text "a")] := by
  refine ⟨captureAll_txn _ _, fun h => ?_⟩
  exact (List.pairwise_cons.mp h.ids).1 _ List.mem_cons_self rfl

end Transactions

end Syntrix.Puller
