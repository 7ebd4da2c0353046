import Syntrix.Lib.Buckets
import Syntrix.Model.Document

/-! # Subscriptions of the streamer

The manager files a subscription by its filters: under the document it asks for, under its collection alone,
or with a compiled expression. Gateways hold the subscriptions they made. A change is matched against the
lists filed under its document, under its collection and against the expressions of its collection.
-/
namespace Syntrix.Streamer

open Lib

/-- An operand of a filter; the message may be missing or hold no kind. -/
inductive ProtoValue where
  | missing
  | unset
  | string (s : Bytes)
  | int (v : Int64)
  | double (f : Model.Binary64)
  | bool (b : Bool)
  | list (items : List ProtoValue)

structure ProtoFilter where
  field : Bytes
  op : Bytes
  value : ProtoValue

structure Subscriber where
  id : Bytes
  gatewayID : Bytes
  database : Bytes
  collection : Bytes
  filters : List ProtoFilter

/-- What a compiled expression gives on a document; none when its evaluation fails. -/
abbrev Program := Model.Document → Option Model.Value

structure ExpressionSubscriber where
  subscriber : Subscriber
  program : Option Program

structure SubscribeRequest where
  subscriptionId : Bytes
  database : Bytes
  collection : Bytes
  filters : List ProtoFilter

structure SubscribeResponse where
  subscriptionId : Bytes
  success : Bool
  error : Bytes

abbrev CELCompiler := List ProtoFilter → Except Bytes (Option Program)

abbrev GatewaySubscriptions := KeyValue Byte Subscriber

structure Manager where
  /-- By database, collection and document. -/
  exactMatches : KeyValue Byte (KeyValue Byte (KeyValue Byte (List Subscriber)))
  /-- By database and collection. -/
  expressions : KeyValue Byte (KeyValue Byte (List ExpressionSubscriber))
  gateways : KeyValue Byte GatewaySubscriptions
  allSubs : KeyValue Byte Subscriber
  expressionSubs : KeyValue Byte ExpressionSubscriber
  celCompiler : Option CELCompiler

namespace Subscriber

def isExactMatch (s : Subscriber) : Bool :=
  match s.filters with
  | [f] => decide (f.field = text "_id") && decide (f.op = text "==")
  | _ => false

def getDocumentID (s : Subscriber) : Bytes :=
  if !s.isExactMatch then []
  else match s.filters with
  | ⟨_, _, .string id⟩ :: _ => id
  | _ => []

def inExact (s : Subscriber) : Bool := s.isExactMatch || s.filters.isEmpty

/-- The subscription is for a document or collection under these keys. -/
def under (s : Subscriber) (database collection : Bytes) : Bool := decide (s.database = database ∧ s.collection = collection)

end Subscriber

namespace Manager

def new (celCompiler : Option CELCompiler) : Manager := ⟨∅, ∅, ∅, ∅, ∅, celCompiler⟩

/-! ## Registration -/

def addExactMatch (m : Manager) (sub : Subscriber) : Manager :=
  let databaseMap := m.exactMatches[sub.database]?.getD ∅
  let collMap := databaseMap[sub.collection]?.getD ∅
  let subs := collMap[sub.getDocumentID]?.getD [] ++ [sub]
  { m with
    exactMatches := m.exactMatches.insert sub.database (databaseMap.insert sub.collection (collMap.insert sub.getDocumentID subs)) }

/-- The first subscriber of the ID leaves its list; levels that became empty are deleted. -/
def removeExactMatch (m : Manager) (sub : Subscriber) : Manager :=
  match m.exactMatches[sub.database]? with
  | none => m
  | some databaseMap =>
    match databaseMap[sub.collection]? with
    | none => m
    | some collMap =>
      let subs := (collMap[sub.getDocumentID]?.getD []).eraseP fun s => decide (s.id = sub.id)
      let collMap := collMap.keep sub.getDocumentID subs subs.isEmpty
      let databaseMap := databaseMap.keep sub.collection collMap collMap.isEmpty
      { m with exactMatches := m.exactMatches.keep sub.database databaseMap databaseMap.isEmpty }

def compileProtoFilters (m : Manager) (filters : List ProtoFilter) : Except Bytes (Option Program) :=
  match m.celCompiler with
  | none => .error (text "CEL compiler not configured")
  | some compile => compile filters

def addExpressionMatch (m : Manager) (sub : Subscriber) : Except Bytes Manager :=
  (m.compileProtoFilters sub.filters).map fun program =>
    let databaseMap := m.expressions[sub.database]?.getD ∅
    let subs := databaseMap[sub.collection]?.getD [] ++ [⟨sub, program⟩]
    { m with
      expressions := m.expressions.insert sub.database (databaseMap.insert sub.collection subs)
      expressionSubs := m.expressionSubs.insert sub.id ⟨sub, program⟩ }

def removeExpressionMatch (m : Manager) (sub : Subscriber) : Manager :=
  match m.expressions[sub.database]? with
  | none => m
  | some databaseMap =>
    let subs := (databaseMap[sub.collection]?.getD []).eraseP fun s => decide (s.subscriber.id = sub.id)
    let databaseMap := databaseMap.keep sub.collection subs subs.isEmpty
    { m with expressions := m.expressions.keep sub.database databaseMap databaseMap.isEmpty }

def newSubscriber (gatewayID : Bytes) (req : SubscribeRequest) : Subscriber :=
  ⟨req.subscriptionId, gatewayID, req.database, req.collection, req.filters⟩

/-- The subscription is noted with its gateway and under its ID before it is filed. -/
def note (m : Manager) (sub : Subscriber) : Manager :=
  { m with
    gateways := m.gateways.insert sub.gatewayID ((m.gateways[sub.gatewayID]?.getD ∅).insert sub.id sub)
    allSubs := m.allSubs.insert sub.id sub }

/-- A subscription whose filters do not compile is taken back from its gateway, which stays known. -/
def rollback (m : Manager) (sub : Subscriber) : Manager :=
  { m with
    gateways := m.gateways.insert sub.gatewayID ((m.gateways[sub.gatewayID]?.getD ∅).erase sub.id)
    allSubs := m.allSubs.erase sub.id }

def subscribe (m : Manager) (gatewayID : Bytes) (req : SubscribeRequest) : Manager × SubscribeResponse :=
  if m.allSubs[req.subscriptionId]?.isSome then
    (m, ⟨req.subscriptionId, false, text "subscription ID already exists"⟩)
  else
    let sub := newSubscriber gatewayID req
    let success : SubscribeResponse := ⟨req.subscriptionId, true, []⟩
    if sub.isExactMatch then ((m.note sub).addExactMatch sub, success)
    else if 0 < sub.filters.length then
      match (m.note sub).addExpressionMatch sub with
      | .ok m => (m, success)
      | .error err => ((m.note sub).rollback sub, ⟨req.subscriptionId, false, text "failed to compile filters: " ++ err⟩)
    else ((m.note sub).addExactMatch sub, success)

def removeMatch (m : Manager) (sub : Subscriber) : Manager :=
  if sub.isExactMatch || decide (sub.filters.length = 0) then m.removeExactMatch sub else m.removeExpressionMatch sub

def forget (m : Manager) (id : Bytes) : Manager := { m with allSubs := m.allSubs.erase id, expressionSubs := m.expressionSubs.erase id }

def unsubscribe (m : Manager) (subscriptionID : Bytes) : Manager × Option Bytes :=
  match m.allSubs[subscriptionID]? with
  | none => (m, some (text "subscription not found: " ++ subscriptionID))
  | some sub =>
    let gateways := match m.gateways[sub.gatewayID]? with
      | none => m.gateways
      | some gw => m.gateways.insert sub.gatewayID (gw.erase subscriptionID)
    ((({ m with gateways := gateways } : Manager).removeMatch sub).forget subscriptionID, none)

/-- The subscriptions of a gateway come in the order in which its map lists them. -/
def unregisterGateway (m : Manager) (gatewayID : Bytes) (listed : List Subscriber) : Manager :=
  match m.gateways[gatewayID]? with
  | none => m
  | some _ =>
    let m := listed.foldl (fun m sub => (m.removeMatch sub).forget sub.id) m
    { m with gateways := m.gateways.erase gatewayID }

/-! ## Matching -/

abbrev Matches := KeyValue Byte (List Bytes)

def addMatch (result : Matches) (sub : Subscriber) : Matches :=
  result.insert sub.gatewayID (result[sub.gatewayID]?.getD [] ++ [sub.id])

def matchExact (m : Manager) (database collection docID : Bytes) (result : Matches) : Matches :=
  match m.exactMatches[database]? with
  | none => result
  | some databaseMap =>
    match databaseMap[collection]? with
    | none => result
    | some collMap => (collMap[([] : Bytes)]?.getD []).foldl addMatch ((collMap[docID]?.getD []).foldl addMatch result)

def evaluateCEL (exprSub : ExpressionSubscriber) (doc : Model.Document) : Bool :=
  match exprSub.program with
  | none => false
  | some program =>
    match program doc with
    | some (.bool b) => b
    | _ => false

def matchExpressions (m : Manager) (database collection : Bytes) (doc : Model.Document) (result : Matches) : Matches :=
  match m.expressions[database]? with
  | none => result
  | some databaseMap =>
    match databaseMap[collection]? with
    | none => result
    | some subs => subs.foldl (fun result e => if evaluateCEL e doc then addMatch result e.subscriber else result) result

def matchEvent (m : Manager) (database collection docID : Bytes) (doc : Model.Document) : Matches :=
  m.matchExpressions database collection doc (m.matchExact database collection docID ∅)

/-! ## Calls -/

end Manager

inductive ManagerCall where
  | subscribe (gatewayID : Bytes) (req : SubscribeRequest)
  | unsubscribe (subscriptionID : Bytes)
  | unregisterGateway (gatewayID : Bytes) (listed : List Subscriber)

namespace Manager

def apply (m : Manager) : ManagerCall → Manager
  | .subscribe gatewayID req => (m.subscribe gatewayID req).1
  | .unsubscribe subscriptionID => (m.unsubscribe subscriptionID).1
  | .unregisterGateway gatewayID listed => m.unregisterGateway gatewayID listed

def subscriptionsOf (m : Manager) (gatewayID : Bytes) : GatewaySubscriptions := m.gateways[gatewayID]?.getD ∅

def Possible (m : Manager) : ManagerCall → Prop
  | .unregisterGateway gatewayID listed => listed.Perm ((m.subscriptionsOf gatewayID).toList.map Prod.snd)
  | _ => True

def Fails (m : Manager) : ManagerCall → Prop
  | .subscribe gatewayID req => (m.subscribe gatewayID req).2.success = false
  | .unsubscribe subscriptionID => (m.unsubscribe subscriptionID).2.isSome = true
  | .unregisterGateway _ _ => False

end Manager

end Syntrix.Streamer
