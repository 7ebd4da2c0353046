import Syntrix.Lib.Calls
import Syntrix.Console.Resources

/-! # The executor

Ensure and Delete as programs of calls to the Kubernetes API. Others may change the cluster between two
calls, so nothing is known about it but what the calls have returned.
-/
namespace Syntrix.Console

open Lib

/-! ## Calls -/

inductive ApiError where
  | notFound
  | alreadyExists
  | conflict
  | forbidden
  | unauthorized
  | timeout
  | canceled
  | other
deriving DecidableEq

def apiFailure (operation : String) (error : ApiError) : String :=
  let code :=
    match error with
    | .forbidden | .unauthorized => "access_denied"
    | .conflict | .alreadyExists => "conflict"
    | .timeout => "timeout"
    | .canceled => "canceled"
    | .notFound | .other => "failed"
  "kubernetes_" ++ operation ++ "_" ++ code

inductive ApiCall where
  | getDeployment (namespaceName name : String)
  | createDeployment (deployment : Deployment)
  | deleteDeployment (namespaceName name uid : String)
  | getService (namespaceName name : String)
  | createService (service : Service)
  | deleteService (namespaceName name uid : String)
  | listEndpointSlices (namespaceName : String) (service : Option String)
  | getPod (namespaceName name : String)
  | getReplicaSet (namespaceName name : String)
  | listReplicaSets (namespaceName : String)
  | listPods (namespaceName : String)

abbrev ApiCall.Response : ApiCall → Type
  | .getDeployment .. => Except ApiError Deployment
  | .createDeployment .. => Except ApiError Deployment
  | .deleteDeployment .. => Except ApiError Unit
  | .getService .. => Except ApiError Service
  | .createService .. => Except ApiError Service
  | .deleteService .. => Except ApiError Unit
  | .listEndpointSlices .. => Except ApiError (List EndpointSlice)
  | .getPod .. => Except ApiError Pod
  | .getReplicaSet .. => Except ApiError ReplicaSet
  | .listReplicaSets .. => Except ApiError (List ReplicaSet)
  | .listPods .. => Except ApiError (List Pod)

abbrev Program (α : Type) := Calls ApiCall ApiCall.Response α

abbrev Seen := Calls.Seen ApiCall ApiCall.Response

/-! ## Observations -/

structure Observation where
  deploymentUID : String
  serviceUID : String
  ready : Bool := false
  deleted : Bool := false
  reason : String := ""
deriving DecidableEq

def observation (w : Workload) : Observation where
  deploymentUID := w.deploymentUID
  serviceUID := w.serviceUID

abbrev Outcome := Observation × Option String

def failed (o : Observation) (reason : String) : Outcome := ({ o with reason := reason }, some reason)

structure Executor where
  namespaceName : String
  installationID : String
  parseQuantity : String → Option Int
  /-- The digest of a template, as text. -/
  digest : Template → String
  validTemplate : Template → Bool

def workloadIDPattern (id : String) : Bool :=
  id.length = 32 && id.toList.all fun c => ('a' ≤ c && c ≤ 'f') || ('0' ≤ c && c ≤ '9')

def Executor.validate (e : Executor) (w : Workload) : Option String :=
  if w.namespaceName ≠ e.namespaceName || w.installationID ≠ e.installationID then some "kubernetes_target_changed"
  else if !workloadIDPattern w.id || w.developerID = "" || w.deploymentName ≠ "w-" ++ w.id || w.serviceName ≠ "w-" ++ w.id ||
      w.templateDigest = "" || w.templateID ≠ w.snapshot.id then some "kubernetes_workload_identity_invalid"
  else if e.digest w.snapshot ≠ w.templateDigest then some "kubernetes_template_digest_invalid"
  else if !e.validTemplate w.snapshot then some "kubernetes_template_invalid"
  else none

/-! ## Ensure -/

/-- What was read or created is used only if it passes the checks. -/
def checkDeployment (w : Workload) (desired : Deployment) : Except ApiError Deployment → Except String Deployment
  | .error error => .error (apiFailure "deployment_ensure" error)
  | .ok actual =>
    match verifyDeployment actual desired w.deploymentUID with
    | some reason => .error reason
    | none => .ok actual

def ensureDeployment (w : Workload) (desired : Deployment) : Program (Except String Deployment) :=
  .call (.getDeployment w.namespaceName w.deploymentName) fun
    | .error .notFound =>
      if w.deploymentUID ≠ "" then .done (.error "kubernetes_deployment_missing")
      else .call (.createDeployment desired) fun
        | .error .alreadyExists => .call (.getDeployment w.namespaceName w.deploymentName) fun r => .done (checkDeployment w desired r)
        | r => .done (checkDeployment w desired r)
    | r => .done (checkDeployment w desired r)

def checkService (w : Workload) (desired : Service) : Except ApiError Service → Except String Service
  | .error error => .error (apiFailure "service_ensure" error)
  | .ok actual =>
    match verifyService actual desired w.serviceUID with
    | some reason => .error reason
    | none => .ok actual

def ensureService (w : Workload) (desired : Service) : Program (Except String Service) :=
  .call (.getService w.namespaceName w.serviceName) fun
    | .error .notFound =>
      if w.serviceUID ≠ "" then .done (.error "kubernetes_service_missing")
      else .call (.createService desired) fun
        | .error .alreadyExists => .call (.getService w.namespaceName w.serviceName) fun r => .done (checkService w desired r)
        | r => .done (checkService w desired r)
    | r => .done (checkService w desired r)

def deploymentReady (d : Deployment) : Bool :=
  d.status.observedGeneration ≥ d.generation && d.status.updatedReplicas = 1 && d.status.replicas = 1 &&
    d.status.readyReplicas ≥ 1 && d.status.availableReplicas ≥ 1 && d.status.unavailableReplicas = 0

/-- The Pods behind the ready endpoints of the Service's own slices. -/
def endpointTargets (w : Workload) (service : Service) (slices : List EndpointSlice) : List TargetRef :=
  (slices.filter fun slice => !slice.deleting && owns slice.toObjectMeta "Service" service.name service.uid &&
      slice.ports.any fun port => port.name = some "http" && port.port = some w.snapshot.port && port.protocol = some "TCP").flatMap
    fun slice => slice.endpoints.filterMap fun endpoint =>
      if endpoint.ready ≠ some true || endpoint.terminating = some true || endpoint.addresses.isEmpty then none
      else endpoint.targetRef.filter fun ref => ref.kind = "Pod" && ref.namespaceName = w.namespaceName && ref.uid ≠ ""

/-- Whether a Pod behind an endpoint is a ready one of the workload. -/
def targetReady (w : Workload) (deployment : Deployment) (ref : TargetRef) : Program (Except String Bool) :=
  .call (.getPod w.namespaceName ref.name) fun
    | .error .notFound => .done (.ok false)
    | .error error => .done (.error (apiFailure "pod_read" error))
    | .ok pod =>
      if pod.uid ≠ ref.uid || pod.deleting || !metadataMatches pod.toObjectMeta w then .done (.ok false)
      else match getControllerOf pod.toObjectMeta with
        | none => .done (.ok false)
        | some owner =>
          if owner.kind ≠ "ReplicaSet" || owner.apiVersion ≠ "apps/v1" then .done (.ok false)
          else .call (.getReplicaSet w.namespaceName owner.name) fun
            | .error .notFound => .done (.ok false)
            | .error error => .done (.error (apiFailure "replicaset_read" error))
            | .ok rs =>
              if rs.uid ≠ owner.uid || rs.deleting || !owns rs.toObjectMeta "Deployment" deployment.name deployment.uid then
                .done (.ok false)
              else .done (.ok pod.ready)

def anyTargetReady (w : Workload) (deployment : Deployment) : List TargetRef → Program (Except String Bool)
  | [] => .done (.ok false)
  | ref :: refs => (targetReady w deployment ref).bind fun
    | .ok false => anyTargetReady w deployment refs
    | r => .done r

def endpointsReady (w : Workload) (deployment : Deployment) (service : Service) : Program (Except String Bool) :=
  .call (.listEndpointSlices w.namespaceName (some service.name)) fun
    | .error error => .done (.error (apiFailure "endpoints_read" error))
    | .ok slices => anyTargetReady w deployment (endpointTargets w service slices)

def ensureReady (w : Workload) (o : Observation) (deployment : Deployment) (service : Service) : Program Outcome :=
  if deployment.deleting || service.deleting then .done (failed o "kubernetes_resource_deleting")
  else if !deploymentReady deployment then
    if deployment.status.progressDeadlineExceeded then
      .done (failed { o with reason := "waiting_for_deployment" } "deployment_progress_deadline_exceeded")
    else .done ({ o with reason := "waiting_for_deployment" }, none)
  else (endpointsReady w deployment service).bind fun
    | .error reason => .done (failed o reason)
    | .ok true => .done ({ o with ready := true }, none)
    | .ok false => .done ({ o with reason := "waiting_for_service_endpoints" }, none)

def Executor.ensure (e : Executor) (w : Workload) : Program Outcome :=
  let o := observation w
  match e.validate w with
  | some reason => .done (failed o reason)
  | none =>
    if w.desiredState ≠ .running then .done (failed o "kubernetes_workload_not_running")
    else match deploymentFor e.parseQuantity w with
      | none => .done (failed o "kubernetes_template_invalid")
      | some desired => (ensureDeployment w desired).bind fun
        | .error reason => .done (failed o reason)
        | .ok deployment =>
          let o := { o with deploymentUID := deployment.uid }
          (ensureService w (serviceFor w deployment.uid)).bind fun
            | .error reason => .done (failed o reason)
            | .ok service => ensureReady w { o with serviceUID := service.uid } deployment service

/-! ## Delete -/

/-- A ReplicaSet that keeps the workload from being deleted. Without a recorded Deployment anything that
carries its marks does. -/
def replicaSetRemains (w : Workload) (o : Observation) (rs : ReplicaSet) : Bool :=
  if o.deploymentUID ≠ "" then owns rs.toObjectMeta "Deployment" w.deploymentName o.deploymentUID
  else annotationsMatch rs.toObjectMeta w || labelsMatch rs.toObjectMeta w ||
    (getControllerOf rs.toObjectMeta).any fun ref =>
      ref.apiVersion = "apps/v1" && ref.kind = "Deployment" && ref.name = w.deploymentName

def podRemains (w : Workload) (pod : Pod) : Bool :=
  annotationsMatch pod.toObjectMeta w || labelsMatch pod.toObjectMeta w ||
    (getControllerOf pod.toObjectMeta).any fun ref =>
      ref.apiVersion = "apps/v1" && ref.kind = "ReplicaSet" && (w.deploymentName ++ "-").toList.isPrefixOf ref.name.toList

def childrenRemain (w : Workload) (o : Observation) : Program (Except String Bool) :=
  .call (.listReplicaSets w.namespaceName) fun
    | .error error => .done (.error (apiFailure "replicasets_read" error))
    | .ok replicaSets =>
      if replicaSets.any (replicaSetRemains w o) then .done (.ok true)
      else .call (.listPods w.namespaceName) fun
        | .error error => .done (.error (apiFailure "pods_read" error))
        | .ok pods =>
          if pods.any (podRemains w) then .done (.ok true)
          else if o.serviceUID = "" then .done (.ok false)
          else .call (.listEndpointSlices w.namespaceName none) fun
            | .error error => .done (.error (apiFailure "endpoints_read" error))
            | .ok slices => .done (.ok (slices.any fun slice => owns slice.toObjectMeta "Service" w.serviceName o.serviceUID))

/-- The Deployment that was read; it has to pass the checks. -/
def readDeployment (w : Workload) (desired : Deployment) : Except ApiError Deployment → Except String (Option Deployment)
  | .error .notFound => .ok none
  | .error error => .error (apiFailure "deployment_read" error)
  | .ok deployment =>
    match verifyDeployment deployment desired w.deploymentUID with
    | some reason => .error reason
    | none => .ok (some deployment)

/-- The UID of the Deployment that owns the Service, when no other is known. -/
def ownerUID (w : Workload) (o : Observation) (service : Service) : Option String :=
  if o.deploymentUID ≠ "" then some o.deploymentUID
  else ((getControllerOf service.toObjectMeta).filter fun owner =>
    owner.kind = "Deployment" && owner.apiVersion = "apps/v1" && owner.name = w.deploymentName && owner.uid ≠ "").map
      OwnerReference.uid

def deletionError (operation : String) : Except ApiError Unit → Option String
  | .ok () => none
  | .error .notFound => none
  | .error error => some (apiFailure operation error)

def deleteDeployment (w : Workload) (o : Observation) (serviceFound : Bool) : Option Deployment → Program Outcome
  | some deployment =>
    let waiting : Outcome := ({ o with reason := "waiting_for_resource_deletion" }, none)
    if deployment.deleting then .done waiting
    else .call (.deleteDeployment w.namespaceName deployment.name deployment.uid) fun r =>
      match deletionError "deployment_delete" r with
      | some reason => .done (failed o reason)
      | none => .done waiting
  | none =>
    if serviceFound then .done ({ o with reason := "waiting_for_resource_deletion" }, none)
    else (childrenRemain w o).bind fun
      | .error reason => .done (failed o reason)
      | .ok true => .done ({ o with reason := "waiting_for_dependent_deletion" }, none)
      | .ok false => .done ({ o with deleted := true }, none)

def deleteService (w : Workload) (o : Observation) (deployment : Option Deployment) (service : Service) : Program Outcome :=
  match ownerUID w o service with
  | none => .done (failed o "kubernetes_service_ownership_conflict")
  | some uid =>
    let o := { o with deploymentUID := uid }
    match verifyService service (serviceFor w uid) w.serviceUID with
    | some reason => .done (failed o reason)
    | none =>
      let o := { o with serviceUID := service.uid }
      if service.deleting then deleteDeployment w o true deployment
      else .call (.deleteService w.namespaceName service.name service.uid) fun r =>
        match deletionError "service_delete" r with
        | some reason => .done (failed o reason)
        | none => deleteDeployment w o true deployment

def Executor.delete (e : Executor) (w : Workload) : Program Outcome :=
  let o := observation w
  match e.validate w with
  | some reason => .done (failed o reason)
  | none =>
    if w.desiredState ≠ .deleted then .done (failed o "kubernetes_workload_not_deleted")
    else match deploymentFor e.parseQuantity w with
      | none => .done (failed o "kubernetes_template_invalid")
      | some desired => .call (.getDeployment w.namespaceName w.deploymentName) fun r =>
        match readDeployment w desired r with
        | .error reason => .done (failed o reason)
        | .ok deployment =>
          let o := { o with deploymentUID := deployment.elim o.deploymentUID fun d => d.uid }
          .call (.getService w.namespaceName w.serviceName) fun
            | .error .notFound => deleteDeployment w o false deployment
            | .error error => .done (failed o (apiFailure "service_read" error))
            | .ok service => deleteService w o deployment service

end Syntrix.Console
