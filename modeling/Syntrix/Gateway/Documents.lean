import Syntrix.Authorization.Rules
import Syntrix.Storage.DocumentStore

/-! # Creating and replacing documents

The two endpoints that write whole documents. A wrapper parses the body and asks the rules; the handler
then decodes the body again for its own purpose and runs the operation on the record. The answers to the
client are left out.
-/
namespace Syntrix.Gateway

open Lib Strings Model Index Storage

section Body

/-- A JSON value at the top of a body. The fields of an object stand as they do in the text. -/
inductive Json where
  | object (fields : List (Bytes × Value))
  | null
  | other

/-- A body by its first value, if it is well formed, and whether more than white space follows. -/
structure Body where
  first : Option Json
  trailing : Bool

def toMap (fields : List (Bytes × Value)) (doc : Document) : Document := fields.foldl (fun doc x => doc.set x.1 x.2) doc

/-- Decode into a map; `null` leaves it missing. -/
def Json.decodeMap : Json → Option (Option Document)
  | .object fields => some (some (toMap fields []))
  | .null => some none
  | .other => none

def Body.unmarshal (body : Body) : Option (Option Document) :=
  if body.trailing then none else body.first.bind Json.decodeMap

def Body.decode (body : Body) : Option (Option Document) := body.first.bind Json.decodeMap

def isField (name key : Bytes) : Bool := decide (key.map lowerByte = name.map lowerByte)

structure UpdateDocumentRequest where
  doc : Option Document
  /-- The values given for the precondition, which are decoded as one. -/
  ifMatch : List Value

def decodeInto (doc : Option Document) : Value → Option (Option Document)
  | .object fields => some (some (toMap fields (doc.getD [])))
  | .null => some none
  | _ => none

def decodeField (r : UpdateDocumentRequest) (x : Bytes × Value) : Option UpdateDocumentRequest :=
  if isField (text "doc") x.1 then (decodeInto r.doc x.2).map fun doc => { r with doc := doc }
  else if isField (text "ifMatch") x.1 then some { r with ifMatch := r.ifMatch ++ [x.2] }
  else some r

def decodeUpdate (fields : List (Bytes × Value)) : Option UpdateDocumentRequest := fields.foldlM decodeField ⟨none, []⟩

def Json.decodeUpdate : Json → Option UpdateDocumentRequest
  | .object fields => Gateway.decodeUpdate fields
  | .null => some ⟨none, []⟩
  | .other => none

def marshal (doc : Document) : List (Bytes × Value) := doc.insertionSort fun x y => ¬ y.1 < x.1

/-- The parsed body is taken from the wrapper when it is there. -/
def decodeBodyAsDocument (body : Body) : Option (Option Document) :=
  match body.unmarshal with
  | some (some cached) => some (some cached)
  | _ => body.decode

def decodeBody (body : Body) : Option UpdateDocumentRequest :=
  match body.unmarshal with
  | some (some cached) => decodeUpdate (marshal cached)
  | _ => body.first.bind Json.decodeUpdate

end Body

section Paths

structure ValidationConfig where
  maxPathLength : Nat
  maxIDLength : Nat

variable (config : ValidationConfig)

def isPathByte (b : Byte) : Bool := isIDByte b || decide (b = slash)

def checkPath (path : Bytes) : Bool :=
  decide (path ≠ []) && decide (path.length ≤ config.maxPathLength) && path.all isPathByte &&
    !([slash].isPrefixOf path || [slash].isSuffixOf path) && !Strings.contains path [slash, slash]

def checkCollectionPath (collection : Bytes) : Bool :=
  checkPath config collection && decide ((collection.splitOn slash).length % 2 ≠ 0)

/-- The collection and the ID of a document path; the ID of a collection path is empty. -/
def explodeFullpath (path : Bytes) : Option (Bytes × Bytes) :=
  if !checkPath config path then none
  else
    let parts := path.splitOn slash
    if parts.zipIdx.any fun x => decide (x.2 % 2 = 1 ∧ config.maxIDLength < x.1.length) then none
    else if parts.length % 2 ≠ 0 then some (path, [])
    else some ([slash].intercalate parts.dropLast, parts.getLastD [])

end Paths

inductive Method where
  | post
  | put
deriving DecidableEq

def Method.action : Method → Bytes
  | .post => text "create"
  | .put => text "update"

structure DocumentRequest where
  method : Method
  database : Bytes
  path : Bytes
  body : Body
  auth : Authorization.Authenticated
  time : Int

section Authorized

/-- A call of `Evaluate`. -/
structure Call where
  database : Bytes
  path : Bytes
  action : Bytes
  request : Authorization.Request
  existingRes : Option Authorization.Resource

def extractIDFromFullpath (fullpath : Bytes) : Bytes := (fullpath.splitOn slash).getLastD []

def flattenStorageDocument (doc : StoredDoc) : Document :=
  let id := Document.getID doc.data
  let out := (Document.setID doc.data (if id = [] then extractIDFromFullpath doc.fullpath else id)).setCollection doc.collection
  let out := ((out.set (text "version") (.int doc.version)).set (text "updatedAt") (.int doc.updatedAt)).set
    (text "createdAt") (.int doc.createdAt)
  if doc.deleted then out.set (text "deleted") (.bool true) else out

def existingResource (row : Row) : Option Authorization.Resource :=
  (live row).map fun doc =>
    let doc := flattenStorageDocument doc
    ⟨doc.stripProtectedFields, doc.getID⟩

/-- What the rules are asked before the handler runs, if the request gets that far. -/
def authorized (r : DocumentRequest) : Program (Option Call) :=
  if r.database = [] then .done none
  else
    let resource := r.body.unmarshal.map fun data => (⟨data.getD [], []⟩ : Authorization.Resource)
    let call := fun existingRes => (⟨r.database, r.path, r.method.action, ⟨r.auth, resource, r.time⟩, existingRes⟩ : Call)
    if r.method.action ≠ text "create" then .access .read fun row => .done (some (call (existingResource row)))
    else .done (some (call none))

end Authorized

section Handlers

/-- What the handlers take from their surroundings: limits, the time, a new identifier, the printing of
integers and the decoding of preconditions. -/
structure Server where
  config : ValidationConfig
  now : Int64
  fresh : Bytes
  printed : Int64 → Bytes
  decodeFilters : List Value → Option Storage.Filter

variable (server : Server)

def createDocument (database : Bytes) (doc : Document) : Program (Option Unit) :=
  let doc := doc.generateIDIfEmpty server.fresh
  let collection := doc.getCollection
  if collection = [] then .done none
  else
    let doc := doc.stripProtectedFields
    (create (newStoredDoc database collection doc.getID doc server.now)).bind fun result => .done result.toOption

def handleCreateDocument (r : DocumentRequest) : Program Unit :=
  if !checkCollectionPath server.config r.path then .done ()
  else match (decodeBodyAsDocument r.body).bind (validateDocument server.printed) with
  | none => .done ()
  | some data =>
    let data := (data.stripProtectedFields.generateIDIfEmpty server.fresh).setCollection r.path
    (createDocument server r.database data).bind fun result =>
      if result.isNone then .done () else .access .read fun _ => .done ()

/-- Replace a document, or create it when it is not there. -/
def replaceDocument (database : Bytes) (doc : Document) (pred : Storage.Filter) : Program Unit :=
  let collection := doc.getCollection
  let id := doc.getID
  if collection = [] ∨ id = [] then .done ()
  else
    let doc := doc.stripProtectedFields
    .access .read fun row =>
      if (live row).isNone then (create (newStoredDoc database collection id doc server.now)).bind fun _ => .done ()
      else (update server.now doc pred).bind fun result =>
        if result.toOption.isNone then .done () else .access .read fun _ => .done ()

def handleReplaceDocument (r : DocumentRequest) : Program Unit :=
  match explodeFullpath server.config r.path with
  | none => .done ()
  | some (collection, docID) =>
    if docID = [] then .done ()
    else match decodeBody r.body with
    | none => .done ()
    | some data =>
      match server.decodeFilters data.ifMatch, validateDocument server.printed data.doc with
      | some pred, some doc =>
        let doc := doc.stripProtectedFields
        if doc.getID ≠ [] ∧ doc.getID ≠ docID then .done ()
        else replaceDocument server r.database ((doc.setID docID).setCollection collection) pred
      | _, _ => .done ()

def handle (r : DocumentRequest) : Program Unit :=
  match r.method with
  | .post => handleCreateDocument server r
  | .put => handleReplaceDocument server r

/-- A request commits a document over a record: the rules were asked and said yes, and the handler
wrote it. -/
structure Commits (rules : Call → Except Authorization.EvaluateError Bool) (r : DocumentRequest) (call : Call) (row : Row)
    (doc : StoredDoc) : Prop where
  asked : (authorized r).Returns (some call)
  allowed : rules call = .ok true
  written : (handle server r).Commits row doc

end Handlers

end Syntrix.Gateway
