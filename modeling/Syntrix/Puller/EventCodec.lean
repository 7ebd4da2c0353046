import Syntrix.Lib.JsonRecord
import Syntrix.Model.TypedValue
import Syntrix.Puller.Event

/-! # The durable form of events

An event is written as an envelope around the envelopes of its document and of its update, whose fields are typed
values. The size of the whole is added up from its parts. Reading allows for the nesting of the whole text, writing
for that of the parts.
-/
namespace Syntrix.Puller

open Lib Json Model Index Option Except
open List hiding forall_mem_nil

structure TruncatedArray where
  field : Bytes
  newSize : Int64

structure DurableDoc extends StoredDoc where
  id : Bytes
  collectionHash : Bytes
  parent : Bytes

structure DurableUpdate where
  updatedFields : List (Bytes × Value)
  removedFields : List Bytes
  truncatedArrays : List TruncatedArray

structure DurableEvent where
  eventID : Bytes
  database : Bytes
  mgoColl : Bytes
  mgoDocID : Bytes
  opType : Bytes
  fullDocument : Option DurableDoc
  updateDesc : Option DurableUpdate
  clusterTime : ClusterTime
  txnNumber : Option Int64
  timestamp : Int64
  backend : Bytes

section Wire

structure EventWire where
  version : Int64 := 0
  eventID : Bytes := []
  database : Bytes := []
  mgoColl : Bytes := []
  mgoDocID : Bytes := []
  opType : Bytes := []
  fullDocument : Option Tree := none
  updateDesc : Option Tree := none
  clusterTime : ClusterTime := ⟨0, 0⟩
  txnNumber : Option Int64 := none
  timestamp : Int64 := 0
  backend : Bytes := []

structure DocumentWire where
  wireVersion : Int64 := 0
  id : Bytes := []
  database : Bytes := []
  fullpath : Bytes := []
  collection : Bytes := []
  logicalID : Bytes := []
  collectionHash : Bytes := []
  parent : Bytes := []
  updatedAt : Int64 := 0
  createdAt : Int64 := 0
  version : Int64 := 0
  data : Option Tree := none
  deleted : Bool := false

structure UpdateWire where
  version : Int64 := 0
  updatedFields : Option Tree := none
  removedFields : List Bytes := []
  truncatedArrays : List TruncatedArray := []

def wireVersion : Int64 := 2

def maxEventBytes : Nat := 64 * 2 ^ 20

def int64Codec : ValueCodec Int64 := numberCodec formatInt parseInt

def uint32Codec : ValueCodec UInt32 := numberCodec (fun v => formatNat v.toNat) parseUint32

def clusterTimeFields : List (RecordField ClusterTime) :=
  [field (text "T") uint32Codec (·.t) (fun c v => { c with t := v }) always,
    field (text "I") uint32Codec (·.i) (fun c v => { c with i := v }) always]

def truncatedArrayFields : List (RecordField TruncatedArray) :=
  [field (text "field") stringCodec (·.field) (fun a v => { a with field := v }) always,
    field (text "newSize") int64Codec (·.newSize) (fun a v => { a with newSize := v }) always]

def eventFields : List (RecordField EventWire) :=
  [field (text "wireVersion") int64Codec (·.version) (fun w v => { w with version := v }) always,
    field (text "eventId") stringCodec (·.eventID) (fun w v => { w with eventID := v }) always,
    field (text "database") stringCodec (·.database) (fun w v => { w with database := v }) always,
    field (text "mgoColl") stringCodec (·.mgoColl) (fun w v => { w with mgoColl := v }) always,
    field (text "mgoDocId") stringCodec (·.mgoDocID) (fun w v => { w with mgoDocID := v }) always,
    field (text "opType") stringCodec (·.opType) (fun w v => { w with opType := v }) always,
    field (text "fullDoc") rawCodec (·.fullDocument) (fun w v => { w with fullDocument := v }) isNone,
    field (text "updateDesc") rawCodec (·.updateDesc) (fun w v => { w with updateDesc := v }) isNone,
    field (text "clusterTime") (recordCodec clusterTimeFields) (·.clusterTime) (fun w v => { w with clusterTime := v }) always,
    field (text "txnNumber") (optionCodec 0 int64Codec) (·.txnNumber) (fun w v => { w with txnNumber := v }) isNone,
    field (text "timestamp") int64Codec (·.timestamp) (fun w v => { w with timestamp := v }) always,
    field (text "backend") stringCodec (·.backend) (fun w v => { w with backend := v }) List.isEmpty]

def documentFields : List (RecordField DocumentWire) :=
  [field (text "wireVersion") int64Codec (·.wireVersion) (fun w v => { w with wireVersion := v }) always,
    field (text "id") stringCodec (·.id) (fun w v => { w with id := v }) always,
    field (text "database") stringCodec (·.database) (fun w v => { w with database := v }) always,
    field (text "fullpath") stringCodec (·.fullpath) (fun w v => { w with fullpath := v }) always,
    field (text "collection") stringCodec (·.collection) (fun w v => { w with collection := v }) always,
    field (text "logicalId") stringCodec (·.logicalID) (fun w v => { w with logicalID := v }) always,
    field (text "collectionHash") stringCodec (·.collectionHash) (fun w v => { w with collectionHash := v }) always,
    field (text "parent") stringCodec (·.parent) (fun w v => { w with parent := v }) always,
    field (text "updatedAt") int64Codec (·.updatedAt) (fun w v => { w with updatedAt := v }) always,
    field (text "createdAt") int64Codec (·.createdAt) (fun w v => { w with createdAt := v }) always,
    field (text "version") int64Codec (·.version) (fun w v => { w with version := v }) always,
    field (text "data") rawCodec (·.data) (fun w v => { w with data := v }) always,
    field (text "deleted") boolCodec (·.deleted) (fun w v => { w with deleted := v }) always]

def updateFields : List (RecordField UpdateWire) :=
  [field (text "wireVersion") int64Codec (·.version) (fun w v => { w with version := v }) always,
    field (text "updatedFields") rawCodec (·.updatedFields) (fun w v => { w with updatedFields := v }) always,
    field (text "removedFields") (listCodec [] stringCodec) (·.removedFields) (fun w v => { w with removedFields := v })
      List.isEmpty,
    field (text "truncatedArrays") (listCodec ⟨[], 0⟩ (recordCodec truncatedArrayFields)) (·.truncatedArrays)
      (fun w v => { w with truncatedArrays := v }) List.isEmpty]

end Wire

section Codec

variable (floats : FloatText)

inductive MarshalError where
  | identity (e : IdentityError)
  | value (e : EncodeError)
  | nested
  | tooLarge (size : Nat)
deriving DecidableEq

/-- The tree whose text `EncodeTypedValue` returns. -/
def typedTree (v : Value) : Except EncodeError Tree :=
  match normalizeValue v with
  | .error e => .error (.value e)
  | .ok normalized =>
    match typedValueTree floats normalized with
    | none => .error .panicked
    | some tree => .ok tree.sortKeys

/-- Messages inside a struct are checked against the limit of nesting when the struct is marshalled. -/
def marshalAround (messages : List Tree) (t : Tree) : Except MarshalError Tree :=
  if ∀ m ∈ messages, m.depth ≤ maxNestingDepth then .ok t else .error .nested

def marshalDocument (doc : DurableDoc) : Except MarshalError Tree :=
  ((logicalDocumentID doc.toStoredDoc).mapError .identity).bind fun identity =>
    ((typedTree floats (.object doc.data)).mapError .value).bind fun data =>
      marshalAround [data] ((recordCodec documentFields).write
        { wireVersion := wireVersion, id := doc.id, database := doc.database, fullpath := doc.fullpath,
          collection := doc.collection, logicalID := identity, collectionHash := doc.collectionHash, parent := doc.parent,
          updatedAt := doc.updatedAt, createdAt := doc.createdAt, version := doc.version, data := some data,
          deleted := doc.deleted })

def marshalUpdateDescription (desc : DurableUpdate) : Except MarshalError Tree :=
  ((typedTree floats (.object desc.updatedFields)).mapError .value).bind fun fields =>
    marshalAround [fields] ((recordCodec updateFields).write
      { version := wireVersion, updatedFields := some fields, removedFields := desc.removedFields,
        truncatedArrays := desc.truncatedArrays })

def eventEnvelope (evt : DurableEvent) : EventWire where
  version := wireVersion
  eventID := evt.eventID
  database := evt.database
  mgoColl := evt.mgoColl
  mgoDocID := evt.mgoDocID
  opType := evt.opType
  clusterTime := evt.clusterTime
  txnNumber := evt.txnNumber
  timestamp := evt.timestamp
  backend := evt.backend

def eventWire (evt : DurableEvent) (document delta : Option Tree) : EventWire :=
  { eventEnvelope evt with fullDocument := document, updateDesc := delta }

/-- The size that `ValidateEncodedEventSize` computes. -/
def encodedEventSize (evt : DurableEvent) (document delta : Option Tree) : Nat :=
  (render ((recordCodec eventFields).write (eventEnvelope evt))).length +
    (document.elim 0 fun t => (text ",\"fullDoc\":").length + (render t).length) +
    (delta.elim 0 fun t => (text ",\"updateDesc\":").length + (render t).length)

def validateEncodedEventSize (evt : DurableEvent) (document delta : Option Tree) : Except MarshalError Unit :=
  if maxEventBytes < encodedEventSize evt document delta then .error (.tooLarge (encodedEventSize evt document delta))
  else .ok ()

def part {α β ε : Type} (f : α → Except ε β) : Option α → Except ε (Option β)
  | none => .ok none
  | some a => (f a).map some

def marshalEvent (evt : DurableEvent) : Except MarshalError Bytes :=
  (part (marshalDocument floats) evt.fullDocument).bind fun document =>
    (part (marshalUpdateDescription floats) evt.updateDesc).bind fun delta =>
      (validateEncodedEventSize evt document delta).bind fun _ =>
        (marshalAround (document.toList ++ delta.toList) ((recordCodec eventFields).write
          (eventWire evt document delta))).map render

inductive UnmarshalError where
  | tooLarge
  | malformed
  | version (v : Int64)
  | identity (e : IdentityError)
  | identityMismatch
  | value (e : TypedError)
  | notAnObject
deriving DecidableEq

def decodeObject (data : Option Tree) : Except UnmarshalError (List (Bytes × Value)) :=
  match data with
  | none => .error .malformed
  | some t =>
    match decodeTypedValue floats (render t) with
    | .error e => .error (.value e)
    | .ok .null => .ok []
    | .ok (.object fields) => .ok fields
    | .ok _ => .error .notAnObject

def unmarshalDocument (data : Tree) : Except UnmarshalError DurableDoc :=
  match (recordCodec documentFields).read {} data with
  | none => .error .malformed
  | some wire =>
    if wire.wireVersion ≠ wireVersion then .error (.version wire.wireVersion)
    else
      let doc : DurableDoc :=
        { id := wire.id, database := wire.database, fullpath := wire.fullpath, collection := wire.collection,
          collectionHash := wire.collectionHash, parent := wire.parent, updatedAt := wire.updatedAt,
          createdAt := wire.createdAt, version := wire.version, deleted := wire.deleted, data := [] }
      match logicalDocumentID doc.toStoredDoc with
      | .error e => .error (.identity e)
      | .ok identity =>
        if identity ≠ wire.logicalID then .error .identityMismatch
        else (decodeObject floats wire.data).map fun fields => { doc with data := fields }

def unmarshalUpdateDescription (data : Tree) : Except UnmarshalError DurableUpdate :=
  match (recordCodec updateFields).read {} data with
  | none => .error .malformed
  | some wire =>
    if wire.version ≠ wireVersion then .error (.version wire.version)
    else (decodeObject floats wire.updatedFields).map fun fields => ⟨fields, wire.removedFields, wire.truncatedArrays⟩

def unmarshalEvent (data : Bytes) : Except UnmarshalError DurableEvent :=
  if maxEventBytes < data.length then .error .tooLarge
  else match (Json.read maxNestingDepth data).bind ((recordCodec eventFields).read {}) with
  | none => .error .malformed
  | some wire =>
    if wire.version ≠ wireVersion then .error (.version wire.version)
    else
      (part (unmarshalDocument floats) wire.fullDocument).bind fun document =>
        (part (unmarshalUpdateDescription floats) wire.updateDesc).map fun delta =>
          { eventID := wire.eventID, database := wire.database, mgoColl := wire.mgoColl, mgoDocID := wire.mgoDocID,
            opType := wire.opType, fullDocument := document, updateDesc := delta, clusterTime := wire.clusterTime,
            txnNumber := wire.txnNumber, timestamp := wire.timestamp, backend := wire.backend }

end Codec

section Reading

theorem int64Codec_keeps (v : Int64) : int64Codec.Keeps v := numberCodec_keeps (parseInt_formatInt v)

theorem uint32Codec_keeps (v : UInt32) : uint32Codec.Keeps v := by
  apply numberCodec_keeps
  have hv := v.toNat_lt
  obtain ⟨b, rest, hText, -, hParse⟩ := @formatNat_spec v.toNat (by omega)
  rw [parseUint32, if_neg (by rw [hText]; simp), hParse, bind_some, if_pos hv, UInt32.ofNat_toNat]

theorem clusterTime_keeps (c : ClusterTime) : (recordCodec clusterTimeFields).Keeps c := fun _ =>
  recordCodec_read (by decide +kernel)
    ⟨_, always_copies (uint32Codec_keeps c.t), _, always_copies (uint32Codec_keeps c.i), rfl⟩

theorem truncatedArray_keeps (a : TruncatedArray) : (recordCodec truncatedArrayFields).Keeps a := fun _ =>
  recordCodec_read (by decide +kernel)
    ⟨_, always_copies (stringCodec_keeps a.field), _, always_copies (int64Codec_keeps a.newSize), rfl⟩

theorem documentWire_read {wire : DocumentWire} {t : Tree} (hData : wire.data = some t) :
    (recordCodec documentFields).read {} ((recordCodec documentFields).write wire) = some wire :=
  recordCodec_read (by decide +kernel)
    ⟨_, always_copies (int64Codec_keeps _), _, always_copies (stringCodec_keeps _), _, always_copies (stringCodec_keeps _),
      _, always_copies (stringCodec_keeps _), _, always_copies (stringCodec_keeps _), _, always_copies (stringCodec_keeps _),
      _, always_copies (stringCodec_keeps _), _, always_copies (stringCodec_keeps _), _, always_copies (int64Codec_keeps _),
      _, always_copies (int64Codec_keeps _), _, always_copies (int64Codec_keeps _),
      _, always_copies (hData ▸ rawCodec_keeps t), _, always_copies fun _ => rfl, rfl⟩

theorem omitted_list {α : Type} {vs : List α} (h : vs.isEmpty = true) : [] = vs := (isEmpty_iff.mp h).symm

theorem omitted_option {α : Type} {v : Option α} (h : v.isNone = true) : none = v := (isNone_iff_eq_none.mp h).symm

theorem updateWire_read {wire : UpdateWire} {t : Tree} (hFields : wire.updatedFields = some t) :
    (recordCodec updateFields).read {} ((recordCodec updateFields).write wire) = some wire := by
  have hRemoved := listCodec_keeps [] fun s (_ : s ∈ wire.removedFields) => stringCodec_keeps s
  have hArrays := listCodec_keeps ⟨[], 0⟩ fun a (_ : a ∈ wire.truncatedArrays) => truncatedArray_keeps a
  exact recordCodec_read (by decide +kernel)
    ⟨_, always_copies (int64Codec_keeps _), _, always_copies (hFields ▸ rawCodec_keeps t),
      _, field_copies (fun _ => hRemoved) (fun h => congrArg (fun v => UpdateWire.mk wire.version wire.updatedFields v []) (omitted_list h)),
      _, field_copies (fun _ => hArrays) (fun h => congrArg (fun v => { wire with truncatedArrays := v }) (omitted_list h)), rfl⟩

theorem eventWire_read (wire : EventWire) :
    (recordCodec eventFields).read {} ((recordCodec eventFields).write wire) = some wire := by
  have hRaw : ∀ t : Option Tree, t.isNone = false → rawCodec.Keeps t := by
    intro t ht
    cases t with
    | none => cases ht
    | some t => exact rawCodec_keeps t
  have hNumber : wire.txnNumber.isNone = false → (optionCodec 0 int64Codec).Keeps wire.txnNumber := by
    intro h
    cases hTxn : wire.txnNumber with
    | none =>
      rw [hTxn] at h
      cases h
    | some v => exact optionCodec_keeps (int64Codec_keeps v) (by simp [int64Codec, numberCodec])
  exact recordCodec_read (by decide +kernel)
    ⟨_, always_copies (int64Codec_keeps _), _, always_copies (stringCodec_keeps _), _, always_copies (stringCodec_keeps _),
      _, always_copies (stringCodec_keeps _), _, always_copies (stringCodec_keeps _), _, always_copies (stringCodec_keeps _),
      _, field_copies (hRaw _) (fun h => congrArg (EventWire.mk _ _ _ _ _ _ · _ _ _ _ _) (omitted_option h)),
      _, field_copies (hRaw _) (fun h => congrArg (EventWire.mk _ _ _ _ _ _ _ · _ _ _ _) (omitted_option h)),
      _, always_copies (clusterTime_keeps _),
      _, field_copies hNumber (fun h => congrArg (EventWire.mk _ _ _ _ _ _ _ _ _ · _ _) (omitted_option h)),
      _, always_copies (int64Codec_keeps _),
      _, field_copies (fun _ => stringCodec_keeps _) (fun h => congrArg (EventWire.mk _ _ _ _ _ _ _ _ _ _ _ ·) (omitted_list h)),
      rfl⟩

end Reading

section Shape

variable {n : Nat}

theorem int64Codec_valid (v : Int64) : (int64Codec.write v).Valid := .number (formatInt_isNumber v)

theorem uint32Codec_valid (v : UInt32) : (uint32Codec.write v).Valid := by
  have hv := v.toNat_lt
  exact .number (formatNat_isNumber (by omega))

theorem clusterTime_valid (c : ClusterTime) : ((recordCodec clusterTimeFields).write c).Valid := by
  refine record_valid (by decide +kernel) ?_
  simp only [clusterTimeFields, forall_mem_cons, forall_mem_nil, and_true, forall_write]
  exact ⟨fun _ => uint32Codec_valid _, fun _ => uint32Codec_valid _⟩

theorem truncatedArray_valid {a : TruncatedArray} (h : utf8Valid a.field = true) :
    ((recordCodec truncatedArrayFields).write a).Valid := by
  refine record_valid (by decide +kernel) ?_
  simp only [truncatedArrayFields, forall_mem_cons, forall_mem_nil, and_true, forall_write]
  exact ⟨fun _ => .string h, fun _ => int64Codec_valid _⟩

/-- The texts of a document are UTF-8, and the keys of its maps are distinct. -/
structure DurableDoc.Text (doc : DurableDoc) : Prop where
  strings : ∀ s ∈ [doc.id, doc.database, doc.fullpath, doc.collection, doc.collectionHash, doc.parent], utf8Valid s = true
  maps : (Value.object doc.data).Distinct

variable {t : Tree}

variable {wire : DocumentWire}

theorem document_valid (hData : wire.data = some t) (ht : t.Valid)
    (hStrings : ∀ s ∈ [wire.id, wire.database, wire.fullpath, wire.collection, wire.collectionHash, wire.parent], utf8Valid s = true)
    (hLogical : utf8Valid wire.logicalID = true) : ((recordCodec documentFields).write wire).Valid := by
  refine record_valid (by decide +kernel) ?_
  simp only [forall_mem_cons, forall_mem_nil, and_true] at hStrings
  obtain ⟨hId, hDatabase, hPath, hCollection, hHash, hParent⟩ := hStrings
  simp only [documentFields, forall_mem_cons, forall_mem_nil, and_true, forall_write]
  exact ⟨fun _ => int64Codec_valid _, fun _ => .string hId, fun _ => .string hDatabase, fun _ => .string hPath,
    fun _ => .string hCollection, fun _ => .string hLogical, fun _ => .string hHash, fun _ => .string hParent,
    fun _ => int64Codec_valid _, fun _ => int64Codec_valid _, fun _ => int64Codec_valid _, fun _ => hData ▸ ht, fun _ => .bool⟩

theorem document_depth (hData : wire.data = some t) :
    ((recordCodec documentFields).write wire).depth ≤ n + 1 ↔ t.depth ≤ n := by
  rw [record_depth]
  simp only [documentFields, forall_mem_cons, forall_mem_nil, and_true, forall_write, always, int64Codec, numberCodec,
    stringCodec, boolCodec, rawCodec, Tree.depth, hData, getD_some, forall_const, Nat.zero_le, true_and]

variable {wire : UpdateWire}

theorem update_valid (hFields : wire.updatedFields = some t) (ht : t.Valid)
    (hRemoved : ∀ s ∈ wire.removedFields, utf8Valid s = true) (hArrays : ∀ a ∈ wire.truncatedArrays, utf8Valid a.field = true) :
    ((recordCodec updateFields).write wire).Valid := by
  refine record_valid (by decide +kernel) ?_
  simp only [updateFields, forall_mem_cons, forall_mem_nil, and_true, forall_write]
  exact ⟨fun _ => int64Codec_valid _, fun _ => hFields ▸ ht,
    fun _ => .array (itemsValid_map fun s hs => .string (hRemoved s hs)),
    fun _ => .array (itemsValid_map fun a ha => truncatedArray_valid (hArrays a ha))⟩

theorem update_depth (hFields : wire.updatedFields = some t) :
    ((recordCodec updateFields).write wire).depth ≤ n + 3 ↔ t.depth ≤ n + 2 := by
  have hStrings : itemsDepth (wire.removedFields.map Tree.string) ≤ n + 1 := itemsDepth_map_le fun _ => Nat.zero_le _
  have hRecords : itemsDepth (wire.truncatedArrays.map (recordCodec truncatedArrayFields).write) ≤ n + 1 := by
    refine itemsDepth_map_le fun a => record_depth.mpr ?_
    simp only [truncatedArrayFields, forall_mem_cons, forall_mem_nil, implies_true, and_true, forall_write, int64Codec, numberCodec,
      stringCodec, Tree.depth, Nat.zero_le]
  rw [record_depth]
  simp only [updateFields, forall_mem_cons, forall_mem_nil, and_true, forall_write, always, int64Codec, numberCodec,
    stringCodec, listCodec, rawCodec, Tree.depth, hFields, getD_some, forall_const, Nat.zero_le, true_and]
  exact and_iff_left ⟨fun _ => Nat.succ_le_succ hStrings, fun _ => Nat.succ_le_succ hRecords⟩

variable {wire : EventWire}

theorem event_valid (hRaw : ∀ t, wire.fullDocument = some t ∨ wire.updateDesc = some t → t.Valid)
    (hStrings : ∀ s ∈ [wire.eventID, wire.database, wire.mgoColl, wire.mgoDocID, wire.opType, wire.backend], utf8Valid s = true) :
    ((recordCodec eventFields).write wire).Valid := by
  have hMessage : ∀ {t : Option Tree}, (∀ u, t = some u → u.Valid) → (rawCodec.write t).Valid := by
    intro t h
    cases t with
    | none => exact .null
    | some t => exact h t rfl
  have hTxn : ((optionCodec 0 int64Codec).write wire.txnNumber).Valid := by
    cases wire.txnNumber with
    | none => exact .null
    | some v => exact int64Codec_valid v
  refine record_valid (by decide +kernel) ?_
  simp only [forall_mem_cons, forall_mem_nil, and_true] at hStrings
  obtain ⟨hId, hDatabase, hColl, hDoc, hOp, hBackend⟩ := hStrings
  simp only [eventFields, forall_mem_cons, forall_mem_nil, and_true, forall_write]
  exact ⟨fun _ => int64Codec_valid _, fun _ => .string hId, fun _ => .string hDatabase, fun _ => .string hColl,
    fun _ => .string hDoc, fun _ => .string hOp, fun _ => hMessage fun t h => hRaw t (.inl h),
    fun _ => hMessage fun t h => hRaw t (.inr h), fun _ => clusterTime_valid _, fun _ => hTxn, fun _ => int64Codec_valid _,
    fun _ => .string hBackend⟩

theorem event_depth :
    ((recordCodec eventFields).write wire).depth ≤ n + 2 ↔
      ∀ t, wire.fullDocument = some t ∨ wire.updateDesc = some t → t.depth ≤ n + 1 := by
  have hMessage : ∀ {t : Option Tree}, (t.isNone = false → (rawCodec.write t).depth ≤ n + 1) ↔ ∀ u, t = some u → u.depth ≤ n + 1 := by
    intro t
    cases t <;> simp [rawCodec]
  have hTime : ((recordCodec clusterTimeFields).write wire.clusterTime).depth ≤ n + 1 := by
    rw [record_depth]
    simp only [clusterTimeFields, forall_mem_cons, forall_mem_nil, implies_true, and_true, forall_write, uint32Codec, numberCodec, Tree.depth, Nat.zero_le]
  have hTxn : ((optionCodec 0 int64Codec).write wire.txnNumber).depth ≤ n + 1 := by
    cases wire.txnNumber <;> exact Nat.zero_le _
  have hNumber : ∀ v, (int64Codec.write v).depth ≤ n + 1 := fun _ => Nat.zero_le _
  rw [record_depth]
  simp only [eventFields, forall_mem_cons, forall_mem_nil, implies_true, and_true, forall_write, hMessage, hTime,
    hTxn, hNumber, stringCodec, Tree.depth, Nat.zero_le, true_and, or_imp, forall_and]

theorem event_length (evt : DurableEvent) (document delta : Option Tree) :
    (render ((recordCodec eventFields).write (eventWire evt document delta))).length = encodedEventSize evt document delta := by
  have hFields : eventFields = eventFields.take 6 ++ (eventFields.drop 6).take 2 ++ eventFields.drop 8 := rfl
  have hNonempty : ∀ wire, members eventFields wire ≠ [] := by
    intro wire h
    cases h
  have hParts : ∀ document delta, members eventFields (eventWire evt document delta) =
      members (eventFields.take 6) (eventEnvelope evt) ++
        ((document.map fun t => (text "fullDoc", t)).toList ++ (delta.map fun t => (text "updateDesc", t)).toList) ++
        members (eventFields.drop 8) (eventEnvelope evt) := by
    intro document delta
    rw [hFields, members_append, members_append]
    cases document <;> cases delta <;> rfl
  have hBare : members eventFields (eventEnvelope evt) =
      members (eventFields.take 6) (eventEnvelope evt) ++ members (eventFields.drop 8) (eventEnvelope evt) :=
    (hParts none none).trans (by simp)
  rw [encodedEventSize]
  change (render (.object (members _ _))).length = (render (.object (members _ _))).length + _ + _
  rw [render_object_length (hNonempty _), render_object_length (hNonempty _), hParts, hBare]
  have hName : (render (.string (text "fullDoc"))).length = 9 ∧ (render (.string (text "updateDesc"))).length = 12 := by
    decide +kernel
  have hComma : (text ",\"fullDoc\":").length = 11 ∧ (text ",\"updateDesc\":").length = 14 := by decide +kernel
  cases document <;> cases delta <;>
    simp only [map_append, sum_append, map_none, map_some, toList_none, toList_some,
      map_nil, map_cons, sum_nil, sum_cons, memberLength, hName, hComma, elim_none, elim_some] <;>
    omega

end Shape

section Restoring

variable {floats : FloatText}

/-- The fields are those `NormalizeValue` returns, up to the order of maps. -/
def Restores (fields restored : List (Bytes × Value)) : Prop :=
  ∃ normalized, normalizeValue (.object fields) = .ok (.object normalized) ∧ Same (.object normalized) (.object restored)

structure DurableDoc.Restored (doc doc' : DurableDoc) : Prop where
  envelope : doc' = { doc with data := doc'.data }
  data : Restores doc.data doc'.data

structure DurableUpdate.Restored (desc desc' : DurableUpdate) : Prop where
  envelope : desc' = { desc with updatedFields := desc'.updatedFields }
  fields : Restores desc.updatedFields desc'.updatedFields

structure DurableEvent.Restored (evt evt' : DurableEvent) : Prop where
  envelope : evt' = { evt with fullDocument := evt'.fullDocument, updateDesc := evt'.updateDesc }
  document : Option.Rel DurableDoc.Restored evt.fullDocument evt'.fullDocument
  update : Option.Rel DurableUpdate.Restored evt.updateDesc evt'.updateDesc

structure DurableUpdate.Text (desc : DurableUpdate) : Prop where
  removed : ∀ s ∈ desc.removedFields, utf8Valid s = true
  arrays : ∀ a ∈ desc.truncatedArrays, utf8Valid a.field = true
  maps : (Value.object desc.updatedFields).Distinct

structure DurableEvent.Text (evt : DurableEvent) : Prop where
  strings : ∀ s ∈ [evt.eventID, evt.database, evt.mgoColl, evt.mgoDocID, evt.opType, evt.backend], utf8Valid s = true
  document : ∀ doc ∈ evt.fullDocument, doc.Text
  update : ∀ desc ∈ evt.updateDesc, desc.Text

/-- The typed fields are nested at least two levels below the limit. -/
def Shallow (floats : FloatText) (fields : List (Bytes × Value)) : Prop :=
  ∀ t, typedTree floats (.object fields) = .ok t → t.depth + 2 ≤ maxNestingDepth

variable {t : Tree}

theorem typedTree_spec {v : Value} (h : typedTree floats v = .ok t) (hv : v.Distinct) :
    ∃ n c, normalizeValue v = .ok n ∧ Coded floats c t ∧ Same n c := by
  unfold typedTree at h
  split at h
  · cases h
  rename_i n hNormalize
  obtain ⟨c, tree, hTree, hCoded, hSame⟩ := coded_of_normalize v hNormalize hv
  rw [hTree] at h
  cases ok.inj h
  exact ⟨n, c, hNormalize, hCoded, hSame⟩

variable {fields : List (Bytes × Value)}

theorem typedTree_object (h : typedTree floats (.object fields) = .ok t) (hDistinct : (Value.object fields).Distinct) :
    t.Valid ∧ (t.depth ≤ maxNestingDepth → ∃ restored, decodeObject floats (some t) = .ok restored ∧ Restores fields restored) := by
  obtain ⟨n, c, hNormalize, hCoded, hSame⟩ := typedTree_spec h hDistinct
  have hObject := hNormalize
  rw [normalizeValue] at hObject
  obtain ⟨ns, -, rfl⟩ := map_eq_ok hObject
  refine ⟨hCoded.valid, ?_⟩
  intro hDepth
  have hDecode := hCoded.decodeTypedValue hDepth
  cases hSame with
  | refl => exact ⟨ns, by rw [decodeObject, hDecode], ns, hNormalize, .refl _⟩
  | @object _ cs hKeys hValues => exact ⟨cs, by rw [decodeObject, hDecode], ns, hNormalize, .object hKeys hValues⟩

theorem marshalAround_eq_ok {messages : List Tree} {u : Tree} (h : marshalAround messages t = .ok u) :
    (∀ m ∈ messages, m.depth ≤ maxNestingDepth) ∧ t = u := by
  unfold marshalAround at h
  split at h
  · exact ⟨‹_›, ok.inj h⟩
  · cases h

structure Enclosed (floats : FloatText) (fields : List (Bytes × Value)) (t : Tree) : Prop where
  valid : t.Valid
  nesting : t.depth + 1 ≤ maxNestingDepth ↔ Shallow floats fields

theorem enclosed {data : Tree} (hData : typedTree floats (.object fields) = .ok data) (ht : t.Valid)
    (hDepth : t.depth ≤ 9997 + 2 ↔ data.depth ≤ 9997 + 1) : Enclosed floats fields t where
  valid := ht
  nesting := by
    rw [show t.depth + 1 ≤ maxNestingDepth ↔ t.depth ≤ 9997 + 2 from Nat.succ_le_succ_iff, hDepth]
    constructor
    · intro h u hu
      rw [hData] at hu
      cases ok.inj hu
      exact Nat.add_le_add_right h 2
    · intro h
      exact Nat.le_of_add_le_add_right (h data hData)

theorem marshalDocument_spec {doc : DurableDoc} (h : marshalDocument floats doc = .ok t) (hText : doc.Text) :
    Enclosed floats doc.data t ∧ ∃ doc', unmarshalDocument floats t = .ok doc' ∧ doc.Restored doc' := by
  obtain ⟨identity, hIdentity, h⟩ := bind_eq_ok h
  obtain ⟨data, hData, h⟩ := bind_eq_ok h
  obtain ⟨hDepth, rfl⟩ := marshalAround_eq_ok h
  have hIdentity := mapError_eq_ok hIdentity
  have hData := mapError_eq_ok hData
  obtain ⟨hValid, hDecodes⟩ := typedTree_object hData hText.maps
  obtain ⟨restored, hDecode, hRestores⟩ := hDecodes (hDepth data (mem_singleton_self data))
  have hLogical : utf8Valid identity = true := by
    have hPath := hText.strings doc.fullpath (by simp)
    have hCollection := hText.strings doc.collection (by simp)
    have hSlash : utf8Valid (doc.collection ++ [slash]) = true := (utf8Valid_append hCollection).trans (by decide +kernel)
    rw [fullpath_of_logicalDocumentID hIdentity, utf8Valid_append hSlash] at hPath
    exact hPath
  refine ⟨enclosed hData (document_valid rfl hValid hText.strings hLogical) (document_depth rfl), ?_⟩
  refine ⟨{ doc with data := restored }, ?_, rfl, hRestores⟩
  rw [unmarshalDocument, documentWire_read rfl]
  dsimp only
  have hSame : logicalDocumentID { doc.toStoredDoc with data := [] } = .ok identity := hIdentity
  rw [if_neg (by simp), hSame]
  dsimp only
  rw [if_neg (by simp), hDecode]
  rfl

theorem marshalUpdateDescription_spec {desc : DurableUpdate} (h : marshalUpdateDescription floats desc = .ok t)
    (hText : desc.Text) :
    Enclosed floats desc.updatedFields t ∧ ∃ desc', unmarshalUpdateDescription floats t = .ok desc' ∧ desc.Restored desc' := by
  obtain ⟨data, hData, h⟩ := bind_eq_ok h
  obtain ⟨hDepth, rfl⟩ := marshalAround_eq_ok h
  have hData := mapError_eq_ok hData
  obtain ⟨hValid, hDecodes⟩ := typedTree_object hData hText.maps
  obtain ⟨restored, hDecode, hRestores⟩ := hDecodes (hDepth data (mem_singleton_self data))
  refine ⟨enclosed hData (update_valid rfl hValid hText.removed hText.arrays) (update_depth rfl), ?_⟩
  refine ⟨{ desc with updatedFields := restored }, ?_, rfl, hRestores⟩
  rw [unmarshalUpdateDescription, updateWire_read rfl]
  dsimp only
  rw [if_neg (by simp), hDecode]
  rfl

theorem part_eq_ok {α β ε : Type} {f : α → Except ε β} {a : Option α} {b : Option β} (h : part f a = .ok b) :
    Option.Rel (fun x y => f x = .ok y) a b := by
  cases a with
  | none =>
    cases ok.inj h
    exact .none
  | some a =>
    obtain ⟨y, hy, rfl⟩ := map_eq_ok h
    exact .some hy

/-- The missing parts are restored as missing. -/
theorem part_restores {α β ε ε' : Type} {f : α → Except ε β} {g : β → Except ε' α} {P : α → Prop} {R : α → α → Prop}
    (hSpec : ∀ {a b}, f a = .ok b → P a → ∃ a', g b = .ok a' ∧ R a a') {a : Option α} {b : Option β}
    (h : Option.Rel (fun x y => f x = .ok y) a b) (ha : ∀ x ∈ a, P x) : ∃ a', part g b = .ok a' ∧ Option.Rel R a a' := by
  cases h with
  | none => exact ⟨none, rfl, .none⟩
  | @some x y hy =>
    obtain ⟨x', hx', hR⟩ := hSpec hy (ha x rfl)
    exact ⟨some x', by rw [part, hx']; rfl, .some hR⟩

theorem part_encloses {α ε : Type} {f : α → Except ε Tree} {fields : α → List (Bytes × Value)} {P : α → Prop}
    (hSpec : ∀ {a t}, f a = .ok t → P a → Enclosed floats (fields a) t) {a : Option α} {t : Option Tree}
    (h : Option.Rel (fun x y => f x = .ok y) a t) (ha : ∀ x ∈ a, P x) :
    (∀ u, t = some u → u.Valid) ∧ ((∀ u, t = some u → u.depth + 1 ≤ maxNestingDepth) ↔ ∀ x ∈ a, Shallow floats (fields x)) := by
  cases h with
  | none => simp
  | @some x y hy =>
    have hEnclosed := hSpec hy (ha x rfl)
    simpa using ⟨hEnclosed.valid, hEnclosed.nesting⟩

structure DurableEvent.Shallow (floats : FloatText) (evt : DurableEvent) : Prop where
  document : ∀ doc ∈ evt.fullDocument, Puller.Shallow floats doc.data
  update : ∀ desc ∈ evt.updateDesc, Puller.Shallow floats desc.updatedFields

/-- The bytes are as many as the check of the size added up. -/
def Sized (floats : FloatText) (evt : DurableEvent) (data : Bytes) : Prop :=
  ∃ document delta, data.length = encodedEventSize evt document delta ∧
    part (marshalDocument floats) evt.fullDocument = .ok document ∧
    part (marshalUpdateDescription floats) evt.updateDesc = .ok delta

theorem marshalEvent_spec {evt : DurableEvent} {data : Bytes} (h : marshalEvent floats evt = .ok data) (hText : evt.Text) :
    Sized floats evt data ∧ data.length ≤ maxEventBytes ∧
      (evt.Shallow floats → ∃ evt', unmarshalEvent floats data = .ok evt' ∧ evt.Restored evt') ∧
      (¬ evt.Shallow floats → unmarshalEvent floats data = .error .malformed) := by
  obtain ⟨document, hDocument, h⟩ := bind_eq_ok h
  obtain ⟨delta, hDelta, h⟩ := bind_eq_ok h
  obtain ⟨_, hSize, h⟩ := bind_eq_ok h
  obtain ⟨tree, hTree, rfl⟩ := map_eq_ok h
  obtain ⟨-, rfl⟩ := marshalAround_eq_ok hTree
  have hLength := event_length evt document delta
  have hFits : encodedEventSize evt document delta ≤ maxEventBytes := by
    unfold validateEncodedEventSize at hSize
    split at hSize
    · cases hSize
    · omega
  have hRead : ¬ maxEventBytes < (render ((recordCodec eventFields).write (eventWire evt document delta))).length := by omega
  obtain ⟨hDocValid, hDocNesting⟩ := part_encloses (fun h hP => (marshalDocument_spec h hP).1) (part_eq_ok hDocument) hText.document
  obtain ⟨hUpdValid, hUpdNesting⟩ := part_encloses (fun h hP => (marshalUpdateDescription_spec h hP).1) (part_eq_ok hDelta) hText.update
  have hValid : ((recordCodec eventFields).write (eventWire evt document delta)).Valid :=
    event_valid (fun t ht => ht.elim (hDocValid t) (hUpdValid t)) hText.strings
  have hNesting : ((recordCodec eventFields).write (eventWire evt document delta)).depth ≤
      maxNestingDepth ↔ evt.Shallow floats := by
    rw [show maxNestingDepth = 9998 + 2 from rfl, event_depth]
    constructor
    · intro h
      exact ⟨hDocNesting.mp fun t ht => Nat.succ_le_succ (h t (.inl ht)), hUpdNesting.mp fun t ht => Nat.succ_le_succ (h t (.inr ht))⟩
    · rintro ⟨hDoc, hUpd⟩ t (ht | ht)
      · exact Nat.le_of_succ_le_succ (hDocNesting.mpr hDoc t ht)
      · exact Nat.le_of_succ_le_succ (hUpdNesting.mpr hUpd t ht)
  refine ⟨⟨document, delta, hLength, hDocument, hDelta⟩, by omega, ?_, ?_⟩
  · intro hShallow
    obtain ⟨doc', hDoc', hDocRestored⟩ := part_restores (fun h hP => (marshalDocument_spec h hP).2) (part_eq_ok hDocument) hText.document
    obtain ⟨desc', hDesc', hDescRestored⟩ := part_restores (fun h hP => (marshalUpdateDescription_spec h hP).2) (part_eq_ok hDelta) hText.update
    refine ⟨{ evt with fullDocument := doc', updateDesc := desc' }, ?_, rfl, hDocRestored, hDescRestored⟩
    rw [unmarshalEvent, if_neg hRead, read_render hValid (hNesting.mpr hShallow), bind_some, eventWire_read]
    change (if wireVersion ≠ wireVersion then _ else (part (unmarshalDocument floats) document).bind fun document =>
      (part (unmarshalUpdateDescription floats) delta).map _) = _
    rw [if_neg (by simp), hDoc', hDesc']
    rfl
  · intro hDeep
    rw [unmarshalEvent, if_neg hRead, read_render_within hValid, within, if_neg (mt hNesting.mp hDeep)]
    rfl

/-- A marshalled event has the size that was checked, and it is read back as it was, with its values normalized,
exactly when no typed fields are nested to the last level but one that the reader allows. -/
theorem durable_event_restored_iff {evt : DurableEvent} {data : Bytes} (hText : evt.Text)
    (h : marshalEvent floats evt = .ok data) : Sized floats evt data ∧ data.length ≤ maxEventBytes ∧
      ((∃ evt', unmarshalEvent floats data = .ok evt' ∧ evt.Restored evt') ↔ evt.Shallow floats) := by
  obtain ⟨hSize, hFits, hShallow, hDeep⟩ := marshalEvent_spec h hText
  refine ⟨hSize, hFits, ?_, hShallow⟩
  rintro ⟨evt', hRead, -⟩
  by_contra hNot
  rw [hDeep hNot] at hRead
  cases hRead

def nestedValue : Nat → Value
  | 0 => .null
  | n + 1 => .object [(text "a", nestedValue n)]

def nestedTree : Nat → Tree
  | 0 => typedValue (text "null") none
  | n + 1 => typedValue (text "object") (some (.object [(text "a", nestedTree n)]))

theorem nestedValue_spec (floats : FloatText) (n : Nat) : normalizeValue (nestedValue n) = .ok (nestedValue n) ∧
    typedValueTree floats (nestedValue n) = some (nestedTree n) ∧ (nestedTree n).sortKeys = nestedTree n ∧
    (nestedValue n).Distinct := by
  induction n with
  | zero => exact ⟨by rw [nestedValue, normalizeValue], by rw [nestedValue, typedValueTree]; rfl, rfl, trivial⟩
  | succ n ih =>
    obtain ⟨hNormal, hTree, hSorted, hDistinct⟩ := ih
    refine ⟨?_, ?_, ?_, by simp [Fields.keys], hDistinct, trivial⟩
    · rw [nestedValue, normalizeValue, normalizeFields, if_pos (by decide +kernel), hNormal, normalizeFields]
      rfl
    · rw [nestedValue, typedValueTree, typedFields, hTree, typedFields]
      rfl
    · rw [nestedTree, typedValue_sortKeys, Tree.sortKeys, sortMembers, hSorted, sortMembers]
      rfl

theorem nestedTree_size (n : Nat) : (nestedTree n).depth = 2 * n + 1 ∧ (render (nestedTree n)).length = 32 * n + 15 := by
  induction n with
  | zero => exact ⟨rfl, by decide +kernel⟩
  | succ n ih =>
    have hNames : (render (.string (text "type"))).length = 6 ∧ (render (.string (text "value"))).length = 7 ∧
        (render (.string (text "object"))).length = 8 ∧ (render (.string (text "a"))).length = 3 := by decide +kernel
    refine ⟨?_, ?_⟩
    · rw [nestedTree, typedValue_depth, Tree.depth, membersDepth, membersDepth, ih.1]
      omega
    · rw [nestedTree, typedValue, map_some, toList_some, render_object_length (cons_ne_nil _ _)]
      simp only [map_cons, map_nil, sum_cons, sum_nil, memberLength, hNames,
        render_object_length (cons_ne_nil _ _), ih.2]
      omega

/-- An update of one field to a value nested some levels. -/
def nestedUpdate (n : Nat) : DurableEvent where
  eventID := text "1-1"
  database := text "d"
  mgoColl := text "documents"
  mgoDocID := text "x"
  opType := text "update"
  fullDocument := none
  updateDesc := some ⟨[(text "a", nestedValue n)], [], []⟩
  clusterTime := ⟨1, 1⟩
  txnNumber := some 7
  timestamp := 1
  backend := []

theorem nestedUpdate_text (n : Nat) : (nestedUpdate n).Text where
  strings := by
    change ∀ s ∈ [text "1-1", text "d", text "documents", text "x", text "update", []], utf8Valid s = true
    decide +kernel
  document := by
    intro doc hDoc
    cases hDoc
  update := by
    intro desc hDesc
    cases hDesc
    exact ⟨by simp, by simp, (nestedValue_spec bitPatterns (n + 1)).2.2.2⟩

theorem typedTree_nested (n : Nat) : typedTree floats (.object [(text "a", nestedValue n)]) = .ok (nestedTree (n + 1)) := by
  obtain ⟨hNormal, hTree, hSorted, -⟩ := nestedValue_spec floats (n + 1)
  rw [nestedValue] at hNormal hTree
  rw [typedTree, hNormal]
  dsimp only
  rw [hTree]
  dsimp only
  rw [hSorted]

/-- The envelope of the update. -/
def nestedDelta (n : Nat) : Tree :=
  .object [(text "wireVersion", .number (formatInt wireVersion)), (text "updatedFields", nestedTree (n + 1))]

theorem nestedDelta_size (n : Nat) : (nestedDelta n).depth = 2 * n + 4 ∧ (render (nestedDelta n)).length = 32 * n + 81 := by
  obtain ⟨hDepth, hLength⟩ := nestedTree_size (n + 1)
  have hNames : (render (.string (text "wireVersion"))).length = 13 ∧ (render (.string (text "updatedFields"))).length = 15 ∧
      (render (.number (formatInt wireVersion))).length = 1 := by decide +kernel
  refine ⟨?_, ?_⟩
  · change max 0 (max (nestedTree (n + 1)).depth 0) + 1 = _
    omega
  · rw [nestedDelta, render_object_length (cons_ne_nil _ _)]
    simp only [map_cons, map_nil, sum_cons, sum_nil, memberLength, hNames, hLength]
    omega

variable {n : Nat}

theorem marshalEvent_nested (floats : FloatText) (hn : n ≤ 4998) : ∃ data, marshalEvent floats (nestedUpdate n) = .ok data := by
  obtain ⟨hTree, -⟩ := nestedTree_size (n + 1)
  obtain ⟨hDepth, hLength⟩ := nestedDelta_size n
  have hDelta : marshalUpdateDescription floats ⟨[(text "a", nestedValue n)], [], []⟩ = .ok (nestedDelta n) := by
    have hLimit : ∀ m ∈ [nestedTree (n + 1)], m.depth ≤ maxNestingDepth := by
      rw [forall_mem_singleton, hTree, maxNestingDepth]
      omega
    rw [marshalUpdateDescription, typedTree_nested]
    exact if_pos hLimit
  have hHeader : (render ((recordCodec eventFields).write (eventEnvelope (nestedUpdate n)))).length ≤ 200 := by
    change (render ((recordCodec eventFields).write (eventEnvelope (nestedUpdate 0)))).length ≤ 200
    decide +kernel
  have hName : (text ",\"updateDesc\":").length = 14 := by decide +kernel
  have hSize : validateEncodedEventSize (nestedUpdate n) none (some (nestedDelta n)) = .ok () := by
    refine if_neg ?_
    rw [encodedEventSize, elim_none, elim_some, hName, hLength, maxEventBytes]
    omega
  have hLimit : ∀ m ∈ [nestedDelta n], m.depth ≤ maxNestingDepth := by
    rw [forall_mem_singleton, hDepth, maxNestingDepth]
    omega
  have hDocument : part (marshalDocument floats) (nestedUpdate n).fullDocument = .ok none := rfl
  have hUpdate : part (marshalUpdateDescription floats) (nestedUpdate n).updateDesc = .ok (some (nestedDelta n)) := by
    rw [nestedUpdate, part, hDelta, Except.map]
  refine ⟨render ((recordCodec eventFields).write (eventWire (nestedUpdate n) none (some (nestedDelta n)))), ?_⟩
  rw [marshalEvent, hDocument]
  simp only [Except.bind]
  rw [hUpdate]
  simp only
  rw [hSize]
  simp only [toList_none, toList_some, nil_append]
  rw [marshalAround, if_pos hLimit, Except.map]

theorem nestedUpdate_shallow_iff : (nestedUpdate n).Shallow floats ↔ n < 4998 := by
  have hTree := (nestedTree_size (n + 1)).1
  constructor
  · intro h
    have hDepth := h.update _ rfl _ (typedTree_nested n)
    rw [hTree, maxNestingDepth] at hDepth
    omega
  · intro hn
    refine ⟨fun doc hDoc => absurd hDoc (by simp [nestedUpdate]), ?_⟩
    intro desc hDesc t ht
    cases hDesc
    rw [typedTree_nested] at ht
    cases ok.inj ht
    rw [hTree, maxNestingDepth]
    omega

/-- A field of 4998 objects, one inside the other, is written and cannot be read. -/
theorem nested_event_unreadable : ∃ data, (nestedUpdate 4998).Text ∧ marshalEvent bitPatterns (nestedUpdate 4998) = .ok data ∧
    unmarshalEvent bitPatterns data = .error .malformed := by
  obtain ⟨data, hData⟩ := marshalEvent_nested bitPatterns (le_refl 4998)
  have hDeep : ¬ (nestedUpdate 4998).Shallow bitPatterns := fun h => lt_irrefl _ (nestedUpdate_shallow_iff.mp h)
  exact ⟨data, nestedUpdate_text 4998, hData, (marshalEvent_spec hData (nestedUpdate_text 4998)).2.2.2 hDeep⟩

theorem durable_event_restored_nested : ∃ data evt', marshalEvent bitPatterns (nestedUpdate 2) = .ok data ∧
    unmarshalEvent bitPatterns data = .ok evt' ∧ (nestedUpdate 2).Restored evt' := by
  obtain ⟨data, hData⟩ := marshalEvent_nested bitPatterns (show 2 ≤ 4998 by decide)
  have hShallow : (nestedUpdate 2).Shallow bitPatterns := nestedUpdate_shallow_iff.mpr (by decide)
  obtain ⟨evt', hRead, hRestored⟩ := (durable_event_restored_iff (nestedUpdate_text 2) hData).2.2.mpr hShallow
  exact ⟨data, evt', hData, hRead, hRestored⟩

end Restoring

end Syntrix.Puller
