import Syntrix.Authorization.Specificity

/-! # Administrators of a database

A database has an ID and may have a slug; a request names it by one of them. The wrapper of the document
endpoints adds the ID to the grants of the owner, and the rules are passed over for a caller with a grant of
the very text of the request. Replication compares grants with the database that was found instead.
-/
namespace Syntrix.Gateway

open Lib Strings Authorization List

/-! ## The catalog -/

inductive DatabaseStatus where
  | active
  | suspended
  | deleting
  | invalid
deriving DecidableEq

structure Database where
  id : Bytes
  slug : Option Bytes
  ownerID : Bytes
  status : DatabaseStatus
deriving DecidableEq

inductive DatabaseError where
  | notFound
  | suspended
  | deleting
deriving DecidableEq

def idPrefix : Bytes := text "id:"

/-- The ID and the slug that an identifier stands for, and whether it is an ID. -/
def parseIdentifier (identifier : Bytes) : Bytes × Bytes × Bool :=
  if idPrefix.isPrefixOf identifier then (identifier.drop idPrefix.length, [], true) else ([], identifier, false)

def validateResolvedDatabase (db : Database) : Except DatabaseError Database :=
  match db.status with
  | .active => .ok db
  | .suspended => .error .suspended
  | .deleting => .error .deleting
  | .invalid => .error .notFound

/-- The databases by ID and by slug; each is found under its own names. -/
structure Catalog where
  get : Bytes → Option Database
  getBySlug : Bytes → Option Database
  get_id : ∀ id db, get id = some db → db.id = id
  getBySlug_slug : ∀ slug db, getBySlug slug = some db → db.slug = some slug

def Catalog.resolveIdentifier (catalog : Catalog) (identifier : Bytes) : Option Database :=
  match parseIdentifier identifier with
  | (id, _, true) => catalog.get id
  | (_, slug, false) => catalog.getBySlug slug

def Catalog.resolveDatabase (catalog : Catalog) (identifier : Bytes) : Except DatabaseError Database :=
  match catalog.resolveIdentifier identifier with
  | none => .error .notFound
  | some db => validateResolvedDatabase db

def Database.Named (db : Database) (identifier : Bytes) : Prop := db.slug = some identifier ∨ identifier = idPrefix ++ db.id

variable {catalog : Catalog} {db : Database}

theorem Catalog.resolveIdentifier_named {identifier : Bytes}
    (h : catalog.resolveIdentifier identifier = some db) : db.Named identifier := by
  unfold resolveIdentifier parseIdentifier at h
  by_cases hPrefix : idPrefix.isPrefixOf identifier = true
  · obtain ⟨rest, rfl⟩ := isPrefixOf_iff_prefix.mp hPrefix
    rw [Database.Named, catalog.get_id rest db h]
    exact .inr rfl
  · rw [if_neg hPrefix] at h
    exact .inl (catalog.getBySlug_slug identifier db h)

theorem Catalog.resolveDatabase_named {identifier : Bytes}
    (h : catalog.resolveDatabase identifier = .ok db) : db.Named identifier := by
  unfold resolveDatabase at h
  cases hFound : catalog.resolveIdentifier identifier with
  | none =>
    rw [hFound] at h
    cases h
  | some found =>
    rw [hFound] at h
    have hSame : found = db := by
      unfold validateResolvedDatabase at h
      dsimp only at h
      split at h
      · exact Except.ok.inj h
      all_goals cases h
    rw [← hSame]
    exact resolveIdentifier_named hFound

/-! ## Document endpoints -/

def grantFound (db : Database) (dbAdmin : List Bytes) : Bool := dbAdmin.any fun admin => decide (admin = db.id) || decide (db.slug = some admin)

def ownerAuth (db : Database) (auth : Authenticated) : Authenticated :=
  if db.ownerID = auth.uid.getD [] ∧ auth.uid.getD [] ≠ [] then
    if grantFound db auth.dbAdmin then auth else { auth with dbAdmin := auth.dbAdmin ++ [db.id] }
  else auth

inductive Answer where
  | databaseRequired
  | resourceFailed
  | evaluated (result : Except EvaluateError Bool)

structure AdminRequest where
  identifier : Bytes
  path : Bytes
  action : Bytes
  auth : Authenticated
  resource : Option Resource
  time : Int
  /-- What the lookup of the document gives. -/
  existing : Except GetError Resource

section Wrapper

variable (cel : Cel) (order : Iteration) (store : Store) (engine : Engine) (db : Option Database) (r : AdminRequest)

def requestContext : Request := ⟨(db.elim r.auth fun db => ownerAuth db r.auth), r.resource, r.time⟩

def authorizedRequest : Answer :=
  if r.identifier = [] then .databaseRequired
  else if r.action = text "create" then
    .evaluated (evaluate cel order store engine r.identifier r.path r.action (requestContext db r) none)
  else match r.existing with
  | .ok res => .evaluated (evaluate cel order store engine r.identifier r.path r.action (requestContext db r) (some res))
  | .error .notFound => .evaluated (evaluate cel order store engine r.identifier r.path r.action (requestContext db r) none)
  | .error .other => .resourceFailed

end Wrapper

/-! ## Replication -/

structure Principal where
  subject : Bytes
  dbAdmin : List Bytes

inductive AdmissionError where
  | unauthorized
  | databaseRequired
  | resolution (cause : DatabaseError)
  | missing
  | forbidden
  | identityMismatch
deriving DecidableEq

def replicationAdmin (db : Database) (principal : Principal) : Bool :=
  decide (db.ownerID = principal.subject) ||
    principal.dbAdmin.any fun grant => decide (grant = db.id) || decide (grant ≠ [] ∧ db.slug = some grant)

/-- Admission to replication; an invalid expected identity is refused before. -/
def authorizeDatabase (catalog : Catalog) (namespaceText : Bytes) (principal : Principal) (expected : Option Bytes) :
    Except AdmissionError Database :=
  if principal.subject = [] then .error .unauthorized
  else if namespaceText = [] then .error .databaseRequired
  else match catalog.resolveDatabase namespaceText with
  | .error e => .error (.resolution e)
  | .ok db =>
    if db.id = [] then .error .missing
    else if !replicationAdmin db principal then .error .forbidden
    else if ∃ id ∈ expected, db.id ≠ id then .error .identityMismatch
    else .ok db

/-! ## Who is an administrator -/

def Owns (db : Database) (auth : Authenticated) : Prop := db.ownerID = auth.uid.getD [] ∧ auth.uid.getD [] ≠ []

def GrantNames (db : Database) (grant : Bytes) : Prop := grant = db.id ∨ grant = idPrefix ++ db.id ∨ db.slug = some grant

def Entitled (db : Database) (auth : Authenticated) : Prop := Owns db auth ∨ ∃ grant ∈ auth.dbAdmin, GrantNames db grant

def AdminRequest.Reaches (r : AdminRequest) : Prop := r.identifier ≠ [] ∧ (r.action = text "create" ∨ r.existing ≠ .error .other)

def AdminRequest.existingRes (r : AdminRequest) : Option Resource := if r.action = text "create" then none else r.existing.toOption

section Decisions

variable (cel : Cel) (order : Iteration) (store : Store)

def ruleDecision (engine : Engine) (database path action : Bytes) (req : Request) (existingRes : Option Resource) : Except EvaluateError Bool :=
  match engine database with
  | none => .ok false
  | some rules => matchPath cel order store rules.blocks (fullPath database path) action ∅ req existingRes

theorem authorizedRequest_reaches {r : AdminRequest} (hReaches : r.Reaches) (engine : Engine) (db : Option Database) :
    authorizedRequest cel order store engine db r =
      .evaluated (evaluate cel order store engine r.identifier r.path r.action (requestContext db r) r.existingRes) := by
  unfold authorizedRequest AdminRequest.existingRes
  rw [if_neg hReaches.1]
  by_cases hCreate : r.action = text "create"
  · rw [if_pos hCreate, if_pos hCreate]
  rw [if_neg hCreate, if_neg hCreate]
  have hFound := hReaches.2.resolve_left hCreate
  cases hExisting : r.existing with
  | ok res => rfl
  | error e =>
    cases e with
    | notFound => rfl
    | other => exact absurd hExisting hFound

/-- Those entitled to a database are let in whatever the rules say, and for all others the rules decide. -/
structure Recognised (db : Database) (auth : Authenticated) (identifier : Bytes) : Prop where
  complete : Entitled db auth → ∀ engine r, r.identifier = identifier → r.auth = auth → r.Reaches →
    authorizedRequest cel order store engine (some db) r = .evaluated (.ok true)
  sound : ¬ Entitled db auth → ∀ engine r, r.identifier = identifier → r.auth = auth → r.Reaches →
    authorizedRequest cel order store engine (some db) r =
      .evaluated (ruleDecision cel order store engine identifier r.path r.action (requestContext (some db) r) r.existingRes)

variable {db : Database} {auth : Authenticated} {identifier : Bytes}

theorem id_ne_prefixed (id : Bytes) : idPrefix ++ id ≠ id := by
  intro h
  have hLength := congrArg length h
  rw [length_append] at hLength
  have hPrefix : idPrefix.length = 3 := rfl
  omega

theorem mem_ownerAuth (hNamed : db.Named identifier) :
    identifier ∈ (ownerAuth db auth).dbAdmin ↔ identifier ∈ auth.dbAdmin ∨ Owns db auth ∧ identifier = db.id := by
  unfold ownerAuth Owns
  by_cases hOwns : db.ownerID = auth.uid.getD [] ∧ auth.uid.getD [] ≠ []
  · rw [if_pos hOwns]
    cases hFound : grantFound db auth.dbAdmin with
    | false => simp [hOwns]
    | true =>
      refine ⟨.inl, fun h => h.elim id ?_⟩
      rintro ⟨-, rfl⟩
      obtain ⟨admin, hAdmin, hName⟩ := any_eq_true.mp hFound
      rcases Bool.or_eq_true_iff.mp hName with hId | hSlug
      · rwa [← of_decide_eq_true hId]
      rcases hNamed with hOwn | hPrefixed
      · rw [of_decide_eq_true hSlug] at hOwn
        rwa [← Option.some.inj hOwn]
      · exact absurd hPrefixed.symm (id_ne_prefixed db.id)
  · rw [if_neg hOwns]
    exact ⟨.inl, fun h => h.elim id fun h => absurd h.1 hOwns⟩

theorem named_entitled (hNamed : db.Named identifier) (hGrant : identifier ∈ auth.dbAdmin) : Entitled db auth := by
  refine .inr ⟨identifier, hGrant, ?_⟩
  rcases hNamed with hSlug | hPrefixed
  · exact .inr (.inr hSlug)
  · exact .inr (.inl hPrefixed)

theorem databaseAdmin_recognised_iff {catalog : Catalog} (hResolved : catalog.resolveDatabase identifier = .ok db) (hIdentifier : identifier ≠ [])
    (auth : Authenticated) : Recognised cel order store db auth identifier ↔
      (Entitled db auth → identifier ∈ auth.dbAdmin ∨ Owns db auth ∧ identifier = db.id) := by
  have hNamed := Catalog.resolveDatabase_named hResolved
  constructor
  · intro h hEntitled
    -- without rules only an administrator is let in
    let r : AdminRequest := ⟨identifier, [], text "create", auth, none, 0, .error .notFound⟩
    have hReaches : r.Reaches := ⟨hIdentifier, .inl rfl⟩
    have hAllowed := h.complete hEntitled (fun _ => none) r rfl rfl hReaches
    rw [authorizedRequest_reaches _ _ _ hReaches, evaluate] at hAllowed
    have hAdmin : identifier ∈ (ownerAuth db auth).dbAdmin := by
      by_contra hOther
      rw [if_neg (show r.identifier ∉ (requestContext (some db) r).auth.dbAdmin from hOther)] at hAllowed
      cases hAllowed
    exact (mem_ownerAuth hNamed).mp hAdmin
  · intro h
    refine ⟨fun hEntitled engine r hName hAuth hReaches => ?_, fun hEntitled engine r hName hAuth hReaches => ?_⟩
    · subst hName hAuth
      rw [authorizedRequest_reaches _ _ _ hReaches, evaluate, if_pos]
      exact (mem_ownerAuth hNamed).mpr (h hEntitled)
    · subst hName hAuth
      rw [authorizedRequest_reaches _ _ _ hReaches, evaluate, if_neg]
      · rfl
      · intro hAdmin
        rcases (mem_ownerAuth hNamed).mp hAdmin with hGrant | ⟨hOwns, -⟩
        · exact hEntitled (named_entitled hNamed hGrant)
        · exact hEntitled (.inl hOwns)

end Decisions

/-! ## A shop -/

def shop : Database := ⟨text "0123456789abcdef", some (text "shop"), text "owner", .active⟩

def shopCatalog : Catalog where
  get id := if id = shop.id then some shop else none
  getBySlug slug := if slug = text "shop" then some shop else none
  get_id id db h := by
    split at h
    · rename_i hId
      cases h
      exact hId.symm
    · cases h
  getBySlug_slug slug db h := by
    split at h
    · rename_i hSlug
      cases h
      rw [hSlug]
      rfl
    · cases h

def grantedCaller : Authenticated := ⟨some (text "clerk"), [], [], [text "shop"], []⟩

def owningCaller : Authenticated := ⟨some (text "owner"), [], [], [], []⟩

theorem databaseAdmin_recognised_slug : shopCatalog.resolveDatabase (text "shop") = .ok shop ∧ Entitled shop grantedCaller ∧
    Recognised literalCel sortedIteration (fun _ _ => .error .notFound) shop grantedCaller (text "shop") := by
  have hResolved : shopCatalog.resolveDatabase (text "shop") = .ok shop := by rfl
  refine ⟨hResolved, .inr ⟨text "shop", mem_singleton.mpr rfl, .inr (.inr rfl)⟩, ?_⟩
  refine (databaseAdmin_recognised_iff _ _ _ hResolved (by decide) grantedCaller).mpr fun _ => .inl ?_
  exact mem_singleton.mpr rfl

/-- The owner who names the database by its slug is refused. -/
theorem databaseAdmin_owner_refused : shopCatalog.resolveDatabase (text "shop") = .ok shop ∧ Owns shop owningCaller ∧
    authorizedRequest literalCel sortedIteration (fun _ _ => .error .notFound) (fun _ => none) (some shop)
      ⟨text "shop", text "notes", text "create", owningCaller, none, 0, .error .notFound⟩ = .evaluated (.ok false) := by
  refine ⟨by rfl, ⟨rfl, by decide⟩, ?_⟩
  rfl

end Syntrix.Gateway
