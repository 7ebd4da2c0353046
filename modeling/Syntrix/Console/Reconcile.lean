import Syntrix.Lib.Runs
import Syntrix.Console.Safety

/-! # Reconciliation

Requests and reconcilers share the workload table. A reconciler locks a row, runs the executor on what it
read and commits the observation; it can lose its session or stop at any point, and then commits nothing.
A request to delete waits for the lock. The cluster may change at any time, and a call may fail with or
without having had its effect.
-/
namespace Syntrix.Console

open Lib Function

/-! ## The cluster -/

structure Cluster where
  deployments : List Deployment
  services : List Service
  replicaSets : List ReplicaSet
  pods : List Pod
  endpointSlices : List (Option String × EndpointSlice)

def isNamed (namespaceName name : String) (m : ObjectMeta) : Bool := m.namespaceName = namespaceName && m.name = name

def Cluster.deployment? (cluster : Cluster) (namespaceName name : String) : Option Deployment :=
  cluster.deployments.find? fun d => isNamed namespaceName name d.toObjectMeta

def Cluster.service? (cluster : Cluster) (namespaceName name : String) : Option Service :=
  cluster.services.find? fun s => isNamed namespaceName name s.toObjectMeta

/-- A deletion with a UID is refused when another object has the name. -/
def removal (found : Option ObjectMeta) (uid : String) : Except ApiError Unit :=
  match found with
  | none => .error .notFound
  | some m => if m.uid = uid then .ok () else .error .conflict

/-- What the API server does for a call; it gives a new object the UID. A Deployment that is deleted
stays until its dependents are gone. -/
def Cluster.serve (cluster : Cluster) (uid : String) : (c : ApiCall) → Cluster × c.Response
  | .getDeployment ns name => (cluster, (cluster.deployment? ns name).elim (.error .notFound) .ok)
  | .createDeployment d =>
    if (cluster.deployment? d.namespaceName d.name).isSome then (cluster, .error .alreadyExists)
    else
      let created := { d with uid := uid }
      ({ cluster with deployments := cluster.deployments ++ [created] }, .ok created)
  | .deleteDeployment ns name uid =>
    match removal ((cluster.deployment? ns name).map (·.toObjectMeta)) uid with
    | .ok () =>
      ({ cluster with
        deployments := cluster.deployments.map fun d => if isNamed ns name d.toObjectMeta then { d with deleting := true } else d },
        .ok ())
    | .error e => (cluster, .error e)
  | .getService ns name => (cluster, (cluster.service? ns name).elim (.error .notFound) .ok)
  | .createService s =>
    if (cluster.service? s.namespaceName s.name).isSome then (cluster, .error .alreadyExists)
    else
      let created := { s with uid := uid }
      ({ cluster with services := cluster.services ++ [created] }, .ok created)
  | .deleteService ns name uid =>
    match removal ((cluster.service? ns name).map (·.toObjectMeta)) uid with
    | .ok () => ({ cluster with services := cluster.services.filter fun s => !isNamed ns name s.toObjectMeta }, .ok ())
    | .error e => (cluster, .error e)
  | .listEndpointSlices ns service =>
    (cluster, .ok ((cluster.endpointSlices.filter fun x => x.2.namespaceName = ns && service.all fun s => x.1 = some s).map Prod.snd))
  | .getPod ns name => (cluster, (cluster.pods.find? fun p => isNamed ns name p.toObjectMeta).elim (.error .notFound) .ok)
  | .getReplicaSet ns name =>
    (cluster, (cluster.replicaSets.find? fun r => isNamed ns name r.toObjectMeta).elim (.error .notFound) .ok)
  | .listReplicaSets ns => (cluster, .ok (cluster.replicaSets.filter fun r => r.namespaceName = ns))
  | .listPods ns => (cluster, .ok (cluster.pods.filter fun p => p.namespaceName = ns))

def ApiCall.failure (error : ApiError) : (c : ApiCall) → c.Response
  | .getDeployment .. => .error error
  | .createDeployment .. => .error error
  | .deleteDeployment .. => .error error
  | .getService .. => .error error
  | .createService .. => .error error
  | .deleteService .. => .error error
  | .listEndpointSlices .. => .error error
  | .getPod .. => .error error
  | .getReplicaSet .. => .error error
  | .listReplicaSets .. => .error error
  | .listPods .. => .error error

def Cluster.deleted (cluster : Cluster) : ApiCall → Option ObjectMeta
  | .deleteDeployment ns name uid => ((cluster.deployment? ns name).map (·.toObjectMeta)).filter fun m => m.uid = uid
  | .deleteService ns name uid => ((cluster.service? ns name).map (·.toObjectMeta)).filter fun m => m.uid = uid
  | _ => none

/-! ## Status -/

def reconcileStatus (w : Workload) (o : Observation) (error : Option String) : Status × String :=
  match error, w.desiredState with
  | some _, .deleted => (.deleting, "Kubernetes deletion failed; reconciliation will retry")
  | some _, .running => (.failed, "Kubernetes provisioning failed; reconciliation will retry")
  | none, .deleted => (if o.deleted then .deleted else .deleting, "")
  | none, .running => (if o.ready then .ready else .provisioning, "")

/-- The row a reconciliation writes; nothing when it would replace a recorded UID. -/
def reconciled (row w : Workload) (outcome : Outcome) : Option Workload :=
  let deploymentUID := if outcome.1.deploymentUID = "" then w.deploymentUID else outcome.1.deploymentUID
  let serviceUID := if outcome.1.serviceUID = "" then w.serviceUID else outcome.1.serviceUID
  if (w.deploymentUID ≠ "" ∧ deploymentUID ≠ w.deploymentUID) ∨ (w.serviceUID ≠ "" ∧ serviceUID ≠ w.serviceUID) then none
  else
    let status := reconcileStatus w outcome.1 outcome.2
    some { row with status := status.1, deploymentUID := deploymentUID, serviceUID := serviceUID, lastError := status.2 }

/-! ## The system -/

structure Thread where
  workload : Workload
  program : Program Outcome
  seen : Seen

/-- A deletion that took place: who asked for it, after what, and the object it removed. -/
structure Deletion where
  workload : Workload
  seen : Seen
  call : ApiCall
  removed : ObjectMeta

structure Completion where
  workload : Workload
  seen : Seen

structure State where
  cluster : Cluster
  rows : String → Option Workload
  requests : List ((String × String) × String)
  threads : Nat → Option Thread
  /-- The reconciler that holds the lock of a row. -/
  locks : String → Option Nat
  deletions : List Deletion
  completions : List Completion
  /-- The workloads passed to Ensure. -/
  ensured : List String

def start (cluster : Cluster) : State where
  cluster := cluster
  rows := fun _ => none
  requests := []
  threads := fun _ => none
  locks := fun _ => none
  deletions := []
  completions := []
  ensured := []

/-- How a call fails: with its effect or without. -/
structure Fault where
  effective : Bool
  error : ApiError

inductive Action where
  | external (cluster : Cluster)
  | create (developerID templateID key id : String)
  | requestDelete (developerID id : String)
  | begin (thread : Nat) (id : String)
  | call (thread : Nat) (uid : String) (fault : Option Fault)
  | commit (thread : Nat)
  | loseSession (thread : Nat)
  | stop (thread : Nat)

structure WorkloadService where
  executor : Executor
  templates : String → Option Template

def isBlank (s : String) : Bool := s.toList.all Char.isWhitespace

def validRequest (developerID templateID key : String) : Bool :=
  !isBlank developerID && !isBlank templateID && !isBlank key && key.utf8ByteSize ≤ 200 &&
    !key.toList.any fun c => c = '\x00' || c = '\r' || c = '\n'

def newWorkload (svc : WorkloadService) (developerID templateID id : String) (template : Template) : Workload where
  id := id
  developerID := developerID
  templateID := templateID
  snapshot := template
  templateDigest := svc.executor.digest template
  namespaceName := svc.executor.namespaceName
  installationID := svc.executor.installationID
  desiredState := .running
  status := .pending
  revision := 1
  deploymentName := "w-" ++ id
  serviceName := "w-" ++ id
  deploymentUID := ""
  serviceUID := ""
  lastError := ""

section Steps

variable (svc : WorkloadService)

def createStep (s : State) (developerID templateID key id : String) : State :=
  if !validRequest developerID templateID key || (s.requests.lookup (developerID, key)).isSome || (s.rows id).isSome then s
  else match svc.templates templateID with
    | none => s
    | some template =>
      { s with
        rows := update s.rows id (some (newWorkload svc developerID templateID id template))
        requests := ((developerID, key), id) :: s.requests }

def requestDeleteStep (s : State) (developerID id : String) : Option State :=
  match s.rows id with
  | none => some s
  | some row =>
    if row.developerID ≠ developerID then some s
    else if (s.locks id).isSome then none
    else if row.desiredState = .deleted then some s
    else some { s with
      rows := update s.rows id
        (some { row with desiredState := .deleted, status := .deleting, revision := row.revision + 1, lastError := "" }) }

def beginStep (s : State) (n : Nat) (id : String) : Option State :=
  match s.rows id, s.threads n, s.locks id with
  | some row, none, none =>
    let deleting := row.desiredState = .deleted
    let w := { row with status := if deleting then .deleting else .provisioning }
    some { s with
      locks := update s.locks id (some n)
      threads := update s.threads n (some {
        workload := w
        program := if deleting then svc.executor.delete w else svc.executor.ensure w
        seen := [] })
      ensured := if deleting then s.ensured else s.ensured ++ [id] }
  | _, _, _ => none

def callStep (s : State) (n : Nat) (uid : String) (fault : Option Fault) : Option State :=
  match s.threads n with
  | none => none
  | some thread =>
    match thread.program with
    | .done _ => none
    | .call c next =>
      let effective := fault.all Fault.effective
      let served := s.cluster.serve uid c
      let response := fault.elim served.2 fun f => c.failure f.error
      some { s with
        cluster := if effective then served.1 else s.cluster
        threads := update s.threads n
          (some { thread with program := next response, seen := thread.seen ++ [⟨c, response⟩] })
        deletions := s.deletions ++
          (if effective then (s.cluster.deleted c).toList else []).map fun m => ⟨thread.workload, thread.seen, c, m⟩ }

def release (s : State) (n : Nat) (id : String) : String → Option Nat :=
  if s.locks id = some n then update s.locks id none else s.locks

def commitStep (s : State) (n : Nat) : Option State :=
  match s.threads n with
  | none => none
  | some thread =>
    match thread.program, s.rows thread.workload.id with
    | .done outcome, some row =>
      if s.locks thread.workload.id = some n then
        match reconciled row thread.workload outcome with
        | none => some { s with
            locks := release s n thread.workload.id
            threads := update s.threads n none }
        | some next => some { s with
            rows := update s.rows thread.workload.id (some next)
            locks := release s n thread.workload.id
            threads := update s.threads n none
            completions := s.completions ++ (if next.status = .deleted then [⟨thread.workload, thread.seen⟩] else []) }
      else none
    | _, _ => none

def step (s : State) : Action → Option State
  | .external cluster => some { s with cluster := cluster }
  | .create developerID templateID key id => some (createStep svc s developerID templateID key id)
  | .requestDelete developerID id => requestDeleteStep s developerID id
  | .begin n id => beginStep svc s n id
  | .call n uid fault => callStep s n uid fault
  | .commit n => commitStep s n
  | .loseSession n => (s.threads n).map fun thread => { s with locks := release s n thread.workload.id }
  | .stop n => (s.threads n).map fun thread =>
      { s with locks := release s n thread.workload.id, threads := update s.threads n none }

end Steps

end Syntrix.Console
