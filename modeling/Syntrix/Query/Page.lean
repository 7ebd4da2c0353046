import Syntrix.Index.OpenCandidates

/-! # Query pages

A page of an index-routed query: candidates are drawn from the stream in batches, read from the
source, checked again against the stored document, and appended until the page is full or the stream
ends. A page that is full carries a cursor with the position of the last candidate it looked at.
-/
namespace Syntrix.Core

open Lib Model Index

inductive OrderDirection where
  | asc
  | desc
  | other (text : Bytes)
deriving DecidableEq

structure Order where
  field : Bytes
  direction : OrderDirection
deriving DecidableEq

inductive QueryError where
  | databaseRequired
  | invalidCollection
  | invalidLimit
  | invalidFilters
  | invalidOrder
  | invalidCursor
  | foreignCursor
  | routeMismatch
  | staleCursor
  | workLimit
  | candidate (cause : CandidateError)
  | notAdvanced
  | invalidIdentity
  | invalidOrderShape (cause : EncodingError)
  | currentProjection (cause : ProjectionError)
  | identity (cause : IdentityError)
  | evaluation (cause : EvaluationError)
  | source
  | encoding
deriving DecidableEq

def queryError : CandidateError → QueryError
  | .staleCursor => .staleCursor
  | .workLimit => .workLimit
  | e => .candidate e

abbrev Document := List (Bytes × Value)

structure QueryCursor where
  version : Nat
  scope : Bytes
  route : Bytes
  order : List Order
  template : Bytes
  generation : Bytes
  branches : Bytes
  position : Bytes
deriving DecidableEq

structure Query (Token : Type) where
  collection : Bytes
  filters : List Filter
  orderBy : List Order
  limit : Int
  startAfter : Option Token
  showDeleted : Bool

structure QueryPage (Token : Type) where
  documents : List Document
  effectiveOrder : List Order
  nextCursor : Option Token

inductive ReadError where
  | budget
  | other
deriving DecidableEq

/-- The document source: what it holds, and which reads it refuses. -/
structure Storage where
  documents : List StoredDoc
  failure : List Bytes → Option ReadError

/-- The text of cursors. The digests and the position of a cursor survive its text. -/
structure CursorCodec (Token : Type) where
  marshal : QueryCursor → Except QueryError Token
  unmarshal : Token → Except QueryError QueryCursor
  kept : ∀ c token c', marshal c = .ok token → unmarshal token = .ok c' →
    c'.template = c.template ∧ c'.position = c.position

structure Engine (Token : Type) where
  storage : Storage
  manager : Manager
  codec : CursorCodec Token
  checkCollection : Bytes → Bool
  queryScope : Bytes → Bytes → List Filter → List Order → Bool → Except QueryError Bytes
  encodedBytes : Document → Except QueryError Nat
  checkPageSize : QueryPage Token → Nat → Except QueryError Unit
  sourcePage : Bytes → Query Token → QueryCursor → Except QueryError (QueryPage Token)

def maxQueryCandidates : Nat := 100000
def maxMaterializationDocuments : Nat := 128
def maxPositionBytes : Nat := 4096
def maxPageBytes : Nat := 16777216
def cursorVersion : Nat := 2
def indexRoute : Bytes := text "index-v2"

def Storage.lookup (s : Storage) (database path : Bytes) : Option StoredDoc :=
  s.documents.find? fun d => decide (d.database = database) && decide (d.fullpath = path)

def Storage.getMany (s : Storage) (database : Bytes) (paths : List Bytes) :
    Except ReadError (List (Option StoredDoc)) :=
  match s.failure paths with
  | some e => .error e
  | none => .ok (paths.map (s.lookup database))

def decodeCursor {Token : Type} (codec : CursorCodec Token) (token : Token) : Except QueryError QueryCursor :=
  match codec.unmarshal token with
  | .error _ => .error .invalidCursor
  | .ok c =>
    if c.version ≠ cursorVersion ∨ c.scope = [] ∨ c.route = [] ∨ c.position = [] ∨
        maxPositionBytes < c.position.length then .error .invalidCursor
    else .ok c

def encodeCursor {Token : Type} (codec : CursorCodec Token) (c : QueryCursor) : Except QueryError Token :=
  if c.position = [] ∨ maxPositionBytes < c.position.length then .error .workLimit else codec.marshal c

def validateQueryOrder : List Bytes → List Order → Except QueryError Unit
  | _, [] => .ok ()
  | seen, o :: rest =>
    match validateQueryField o.field with
    | .error _ => .error .invalidOrder
    | .ok _ =>
      if o.field ∈ seen ∨ o.direction ≠ .asc ∧ o.direction ≠ .desc then .error .invalidOrder
      else validateQueryOrder (o.field :: seen) rest

def normalizeQuery {Token : Type} (checkCollection : Bytes → Bool) (q : Query Token) : Except QueryError (Query Token) :=
  if !checkCollection q.collection then .error .invalidCollection
  else if q.limit < 0 ∨ 1000 < q.limit then .error .invalidLimit
  else
    let limit := if q.limit = 0 then 100 else q.limit
    match normalizeFilters q.filters with
    | .error _ => .error .invalidFilters
    | .ok filters =>
      if filters.any tooManyValues then .error .invalidFilters
      else (validateQueryOrder [] q.orderBy).map fun _ => { q with limit := limit, filters := filters }

def isIDOnlyQuery {Token : Type} (q : Query Token) : Bool :=
  decide (q.orderBy = []) && !q.filters.isEmpty &&
    q.filters.all fun f => decide (f.field = idField) && (decide (f.op = .opEq) || decide (f.op = .opIn))

/-- Queries without filters and order, and queries for IDs, are answered by the source. -/
def sourceRouted {Token : Type} (q : Query Token) : Bool :=
  (q.filters.isEmpty && decide (q.orderBy = [])) || isIDOnlyQuery q

def planOrder (o : Order) : OrderField := ⟨o.field, if o.direction = .desc then .desc else .asc⟩

def pageOrder (f : OrderField) : Order := ⟨f.field, if f.direction = .desc then .desc else .asc⟩

def queryToPlan {Token : Type} (q : Query Token) : Plan :=
  ⟨q.collection, q.filters, q.orderBy.map planOrder, q.showDeleted, [], [], [], [], maxQueryCandidates⟩

/-- The document a caller sees: business fields under the metadata of the envelope. -/
def pageDocument (stored : StoredDoc) (id : Bytes) : Document :=
  (if stored.deleted then [] else stored.data.filter fun entry => entry.1 ∉ metadataFields) ++
    metadataFields.map fun field => (field, (documentField stored id field).getD .null)

/-- A stored document that belongs to the query; none when it is passed over. -/
def validateSource (database : Bytes) (collection : Bytes) (filters : List Filter) (showDeleted : Bool)
    (expectedID : Bytes) : Option StoredDoc → Except QueryError (Option StoredDoc)
  | none => .ok none
  | some stored =>
    if stored.database ≠ database ∨ stored.collection ≠ collection then .ok none
    else ((logicalDocumentID stored).mapError .identity).bind fun id =>
      if id ≠ expectedID then .ok none
      else if stored.deleted && !showDeleted then .ok none
      else ((evaluateFilters filters (documentField stored id)).mapError .evaluation).map fun accepted =>
        if accepted then some stored else none

structure PageState where
  documents : List Document
  position : Bytes
  seen : List Bytes
  pageBytes : Nat

/-- Whether the current projection still has one of the postings that gave the candidate. -/
def holdsPosting (metadata : CandidateMetadata) (position : Bytes) (keys : List Bytes) :
    List Nat → Except QueryError Bool
  | [] => .ok false
  | branch :: rest =>
    ((metadata.postingKey position branch).mapError queryError).bind fun key =>
      (holdsPosting metadata position keys rest).map (decide (key ∈ keys) || ·)

section Page

variable {Token : Type} (e : Engine Token) (database : Bytes) (q : Query Token) (metadata : CandidateMetadata)

def appendPageDocument (doc : Document) (id : Bytes) (state : PageState) : Except QueryError PageState :=
  (e.encodedBytes doc).bind fun bytes =>
    if maxPageBytes < state.pageBytes + bytes then .error .workLimit
    else .ok ⟨state.documents ++ [doc], state.position, id :: state.seen, state.pageBytes + bytes⟩

/-- One materialized candidate. It advances the cursor whether or not it is accepted. -/
def consume (group : CandidateGroup) (stored : Option StoredDoc) (state : PageState) : Except QueryError PageState :=
  let state := { state with position := group.position }
  (validateSource database q.collection q.filters q.showDeleted group.id stored).bind fun accepted =>
    match accepted with
    | none => .ok state
    | some doc =>
      if group.id ∈ state.seen then .ok state
      else ((documentPosition metadata.effectiveOrder doc group.id).mapError .invalidOrderShape).bind fun position =>
        if position ≠ group.position then .ok state
        else
          ((buildDocumentProjection e.manager.digests.fingerprint doc metadata.template metadata.generation
              defaultProjectionLimits).mapError .currentProjection).bind fun projection =>
            (holdsPosting metadata group.position projection.postingKeys group.branches).bind fun valid =>
              if !valid then .ok state
              else appendPageDocument e (pageDocument doc group.id) group.id state

def consumeAll : List CandidateGroup → List (Option StoredDoc) → PageState → Except QueryError PageState
  | group :: groups, stored :: rest, state =>
    (consume e database q metadata group stored state).bind (consumeAll groups rest)
  | _, _, state => .ok state

def documentPath (collection id : Bytes) : Bytes := collection ++ [slash] ++ id

/-- Read candidates from the source, splitting batches that exceed its budget. The rounds are
bounded by the fuel, of which the candidates left and the batch size are always enough. -/
def materialize : Nat → Nat → List CandidateGroup → PageState → Except QueryError PageState
  | _, _, [], state => .ok state
  | 0, _, _ :: _, _ => .error .source
  | fuel + 1, batchLimit, groups, state =>
    let batch := groups.take batchLimit
    match e.storage.getMany database (batch.map fun g => documentPath q.collection g.id) with
    | .error .budget =>
      if 1 < batch.length then materialize fuel (batch.length / 2) groups state else .error .workLimit
    | .error .other => .error .source
    | .ok docs => (consumeAll e database q metadata batch docs state).bind
        (materialize fuel batchLimit (groups.drop batchLimit))

def validCandidate (previous : Bytes) (group : CandidateGroup) : Except QueryError Unit :=
  if group.position = [] ∨ maxPositionBytes < group.position.length then .error .workLimit
  else if previous ≠ [] ∧ ¬ previous < group.position then .error .notAdvanced
  else if group.id = [] ∨ slash ∈ group.id ∨ 0 ∈ group.id then .error .invalidIdentity
  else .ok ()

def collectGroups : Nat → Bytes → CandidateStream (MemView × List ViewIterator) →
    Except QueryError (List CandidateGroup × Bool × CandidateStream (MemView × List ViewIterator))
  | 0, _, s => .ok ([], false, s)
  | n + 1, previous, s =>
    match s.next memSource (s.iterators + 1) with
    | .error e => .error (queryError e)
    | .ok none => .error .source
    | .ok (some (group, s)) =>
      if maxQueryCandidates < memSource.examined s.source then .error .workLimit
      else match group with
      | none => .ok ([], true, s)
      | some group =>
        (validCandidate previous group).bind fun _ =>
          (collectGroups n group.position s).map fun (groups, ended, s) => (group :: groups, ended, s)

/-- Fill a page; no answer when the fuel runs out. -/
def fillPage (limit : Nat) : Nat → CandidateStream (MemView × List ViewIterator) → PageState →
    Except QueryError (Option (PageState × Bool))
  | 0, _, _ => .ok none
  | fuel + 1, s, state =>
    if limit ≤ state.documents.length then .ok (some (state, false))
    else
      (collectGroups (min maxMaterializationDocuments (limit - state.documents.length)) state.position s).bind
        fun (groups, ended, s) =>
          if groups.isEmpty then .ok (some (state, ended))
          else (materialize e database q metadata (2 * groups.length) groups.length groups state).bind fun state =>
            if ended then .ok (some (state, true)) else fillPage limit fuel s state

end Page

section Execute

variable {Token : Type} (e : Engine Token)

def startCursor (scope : Bytes) : Option Token → Except QueryError QueryCursor
  | none => .ok ⟨cursorVersion, scope, [], [], [], [], [], []⟩
  | some token => (decodeCursor e.codec token).bind fun c => if c.scope ≠ scope then .error .foreignCursor else .ok c

def resumePlan (plan : Plan) (c : QueryCursor) : Plan :=
  { plan with afterPosition := c.position, templateFingerprint := c.template, generation := c.generation,
              branchHash := c.branches }

def indexPage (fuel : Nat) (database : Bytes) (q : Query Token) (cursor : QueryCursor) :
    Except QueryError (Option (QueryPage Token)) :=
  if q.startAfter.isSome ∧ (cursor.route ≠ indexRoute ∨ cursor.template = [] ∨ cursor.generation = [] ∨
      cursor.branches = [] ∨ cursor.order = []) then .error .routeMismatch
  else
    let plan := if q.startAfter.isSome then resumePlan (queryToPlan q) cursor else queryToPlan q
    ((openCandidates e.manager database plan).mapError queryError).bind fun s =>
      let metadata := s.metadata
      let order := metadata.effectiveOrder.map pageOrder
      if q.startAfter.isSome ∧ (cursor.template ≠ metadata.templateFingerprint ∨
          cursor.generation ≠ metadata.generation ∨ cursor.branches ≠ metadata.branchHash ∨ order ≠ cursor.order) then
        .error .staleCursor
      else
        (fillPage e database q metadata q.limit.toNat fuel s ⟨[], cursor.position, [], 0⟩).bind fun answer =>
          match answer with
          | none => .ok none
          | some (state, ended) =>
            let token := if ended then .ok none
              else (encodeCursor e.codec ⟨cursor.version, cursor.scope, indexRoute, order,
                metadata.templateFingerprint, metadata.generation, metadata.branchHash, state.position⟩).map some
            token.bind fun token =>
              let page : QueryPage Token := ⟨state.documents, order, token⟩
              (e.checkPageSize page state.pageBytes).map fun _ => some page

def executeQueryPage (fuel : Nat) (database : Bytes) (q : Query Token) : Except QueryError (Option (QueryPage Token)) :=
  if database = [] then .error .databaseRequired
  else (normalizeQuery e.checkCollection q).bind fun q =>
    (e.queryScope database q.collection q.filters q.orderBy q.showDeleted).bind fun scope =>
      (startCursor e scope q.startAfter).bind fun cursor =>
        if sourceRouted q then (e.sourcePage database q cursor).map some
        else indexPage e fuel database q cursor

end Execute

end Syntrix.Core
