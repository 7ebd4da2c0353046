import Syntrix.Index.Template

/-! # Document projections

The postings of one document under one template: one tuple for each distinct scalar of the
membership array, or a single tuple when the template has no membership field. A projection
replaces everything the document had in the index before.
-/
namespace Syntrix.Index

open Lib OrderCode Model

structure StoredDoc where
  database : Bytes
  fullpath : Bytes
  collection : Bytes
  updatedAt : Int64
  createdAt : Int64
  version : Int64
  data : List (Bytes × Value)
  deleted : Bool

inductive IdentityError where
  | databaseRequired
  | collectionNotConcrete
  | emptySegment
  | foreignPath
  | oneSegment
deriving DecidableEq

def validateConcreteCollection (collection : Bytes) : Except IdentityError Unit :=
  if collection = [] || collection.contains 0x2A || collection.contains 0 then .error .collectionNotConcrete
  else if [] ∈ segments collection then .error .emptySegment
  else .ok ()

def validLogicalID (id : Bytes) : Bool := decide (id ≠ []) && !id.contains slash && !id.contains 0

def logicalDocumentID (doc : StoredDoc) : Except IdentityError Bytes :=
  if doc.database = [] then .error .databaseRequired
  else (validateConcreteCollection doc.collection).bind fun _ =>
    let parent := doc.collection ++ [slash]
    if !parent.isPrefixOf doc.fullpath then .error .foreignPath
    else
      let id := doc.fullpath.drop parent.length
      if !validLogicalID id then .error .oneSegment else .ok id

theorem fullpath_of_logicalDocumentID {doc : StoredDoc} {id : Bytes} (h : logicalDocumentID doc = .ok id) :
    doc.fullpath = doc.collection ++ [slash] ++ id := by
  unfold logicalDocumentID at h
  split at h
  · cases h
  obtain ⟨_, -, h⟩ := bind_eq_ok h
  simp only at h
  obtain ⟨hPrefix, h⟩ := guard_eq_ok h
  split at h
  · cases h
  cases h
  have hPrefix : doc.collection ++ [slash] <+: doc.fullpath := by simpa using hPrefix
  exact (List.prefix_append_drop hPrefix)

/-- Metadata is read from the envelope; a tombstone has no business fields. -/
def documentField (doc : StoredDoc) (logicalID field : Bytes) : Option Value :=
  if field = text "id" then some (.string logicalID)
  else if field = text "collection" then some (.string doc.collection)
  else if field = text "version" then some (.int doc.version)
  else if field = text "createdAt" then some (.int doc.createdAt)
  else if field = text "updatedAt" then some (.int doc.updatedAt)
  else if field = text "deleted" then some (.bool doc.deleted)
  else if doc.deleted then none
  else doc.data.lookup field

structure ProjectionLimits where
  maxArrayElements : Nat
  maxPostings : Nat
  maxEncodedBytes : Nat
  maxPositionBytes : Nat

def defaultProjectionLimits : ProjectionLimits := ⟨10000, 1024, 1048576, 4096⟩

inductive ProjectionLimit where
  | membershipElements
  | membershipPostings
  | positionBytes
  | postingBytes
deriving DecidableEq

inductive ProjectionError where
  | limitsNotPositive
  | template (cause : TemplateError)
  | identity (cause : IdentityError)
  | generationRequired
  | field (field : Bytes) (cause : ValueError)
  | membershipElement (field : Bytes) (index : Nat) (cause : ValueError)
  | value (cause : ValueError)
  | encoding (cause : EncodingError)
  | limit (kind : ProjectionLimit) (limit : Nat)
deriving DecidableEq

def isContainer : Value → Bool
  | .array _ | .object _ => true
  | _ => false

/-- The distinct scalars of an array, each normalized, in order of first occurrence. -/
def collectMembers (limits : ProjectionLimits) (field : Bytes) :
    Nat → List Bytes → List Value → Except ProjectionError (List Value)
  | _, _, [] => .ok []
  | j, seen, element :: rest =>
    match normalizeValue element with
    | .error e => .error (.membershipElement field j e)
    | .ok member =>
      if isContainer member then collectMembers limits field (j + 1) seen rest
      else match scalarKey member with
      | .error e => .error (.value e)
      | .ok key =>
        if seen.contains key then collectMembers limits field (j + 1) seen rest
        -- Every kept member has put its key into `seen`.
        else if seen.length = limits.maxPostings then .error (.limit .membershipPostings limits.maxPostings)
        else (collectMembers limits field (j + 1) (key :: seen) rest).map (member :: ·)

def documentTupleField (doc : StoredDoc) (id : Bytes) (f : TemplateField) : Field :=
  let value := documentField doc id f.field
  ⟨value.getD .null, fieldDirection f, value.isNone⟩

def membersOfField (limits : ProjectionLimits) (doc : StoredDoc) (id : Bytes) (f : TemplateField) :
    Except ProjectionError (List Value) :=
  match documentField doc id f.field with
  | none | some .null => .ok []
  | some (.array elements) =>
    if limits.maxArrayElements < elements.length then
      .error (.limit .membershipElements limits.maxArrayElements)
    else collectMembers limits f.field 0 [] elements
  | some value =>
    match normalizeValue value with
    | .error e => .error (.field f.field e)
    | .ok _ => .ok []

def checkScalarField (doc : StoredDoc) (id : Bytes) (f : TemplateField) : Except ProjectionError Unit :=
  match documentField doc id f.field with
  | none => .ok ()
  | some value =>
    match scalarKey value with
    | .error e => .error (.field f.field e)
    | .ok _ => .ok ()

/-- Every field is checked in template order; the membership field gives the members. -/
def collectFields (limits : ProjectionLimits) (doc : StoredDoc) (id : Bytes) :
    List TemplateField → List Value → Except ProjectionError (List Value)
  | [], members => .ok members
  | f :: rest, members =>
    if f.mode = .membership then
      (membersOfField limits doc id f).bind fun found => collectFields limits doc id rest (members ++ found)
    else (checkScalarField doc id f).bind fun _ => collectFields limits doc id rest members

def hasMembership (fields : List TemplateField) : Bool := fields.any fun f => f.mode = .membership

def tupleField (doc : StoredDoc) (id : Bytes) (member : Value) (f : TemplateField) : Field :=
  if f.mode = .membership then ⟨member, .asc, false⟩ else documentTupleField doc id f

def tupleFields (doc : StoredDoc) (id : Bytes) (fields : List TemplateField) (member : Value) : List Field :=
  fields.map (tupleField doc id member)

def encodePostings (limits : ProjectionLimits) (doc : StoredDoc) (id : Bytes) (fields : List TemplateField) :
    Nat → List Value → Except ProjectionError (List Bytes)
  | _, [] => .ok []
  | encodedBytes, member :: rest =>
    ((encode (tupleFields doc id fields member) id).mapError .encoding).bind fun key =>
      if limits.maxEncodedBytes < encodedBytes + key.length then
        .error (.limit .postingBytes limits.maxEncodedBytes)
      else (encodePostings limits doc id fields (encodedBytes + key.length) rest).map (key :: ·)

structure QueryIndexRef where
  database : Bytes
  collection : Bytes
  templateFingerprint : Bytes
  generation : Bytes
deriving DecidableEq

structure Projection where
  index : QueryIndexRef
  documentID : Bytes
  postingKeys : List Bytes
deriving DecidableEq

def sortKeys (keys : List Bytes) : List Bytes := keys.insertionSort fun a b => wordCmp a b ≠ .gt

variable (fingerprint : Template → Bytes)

def buildDocumentProjection (doc : StoredDoc) (t : Template) (generation : Bytes)
    (limits : ProjectionLimits) : Except ProjectionError Projection :=
  if limits.maxArrayElements = 0 ∨ limits.maxPostings = 0 ∨ limits.maxEncodedBytes = 0 ∨
      limits.maxPositionBytes = 0 then .error .limitsNotPositive
  else ((validateTemplate t).mapError .template).bind fun _ =>
    ((logicalDocumentID doc).mapError .identity).bind fun id =>
      if generation = [] then .error .generationRequired
      else
        let index : QueryIndexRef := ⟨doc.database, doc.collection, fingerprint t, generation⟩
        if doc.deleted && !t.includeDeleted then .ok ⟨index, id, []⟩
        else (collectFields limits doc id t.fields []).bind fun members =>
          let scalars := t.fields.filter fun f => f.mode ≠ .membership
          ((encode (scalars.map (documentTupleField doc id)) id).mapError .encoding).bind fun position =>
            if limits.maxPositionBytes < position.length then
              .error (.limit .positionBytes limits.maxPositionBytes)
            else
              let members := if hasMembership t.fields then members else [.null]
              (encodePostings limits doc id t.fields 0 members).map fun keys => ⟨index, id, sortKeys keys⟩

end Syntrix.Index
