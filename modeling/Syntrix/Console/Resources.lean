import Mathlib

/-! # Kubernetes objects of a workload

The objects as the executor reads and writes them, the Deployment and the Service a workload asks for,
and the checks an object has to pass before it counts as the workload's own. Fields of a specification
that no workload sets are kept together.
-/
namespace Syntrix.Console

/-! ## Objects -/

structure OwnerReference where
  apiVersion : String
  kind : String
  name : String
  uid : String
  controller : Option Bool
  blockOwnerDeletion : Option Bool
deriving DecidableEq

structure ObjectMeta where
  name : String
  namespaceName : String
  uid : String := ""
  labels : List (String × String) := []
  annotations : List (String × String) := []
  ownerReferences : List OwnerReference := []
  deleting : Bool := false
deriving DecidableEq

def lookup (values : List (String × String)) (key : String) : String := (values.lookup key).getD ""

def getControllerOf (m : ObjectMeta) : Option OwnerReference :=
  m.ownerReferences.find? fun ref => ref.controller = some true

def owns (owned : ObjectMeta) (kind name uid : String) : Bool :=
  (getControllerOf owned).any fun ref =>
    ref.apiVersion = (if kind = "Service" then "v1" else "apps/v1") && ref.kind = kind && ref.name = name && ref.uid = uid

structure ContainerPort where
  name : String
  containerPort : Int
  protocol : String
deriving DecidableEq

structure Probe where
  path : String
  port : String
  scheme : String
  timeoutSeconds : Int
  periodSeconds : Int
  successThreshold : Int
  failureThreshold : Int
deriving DecidableEq

structure Container where
  name : String
  image : String
  imagePullPolicy : String
  ports : List ContainerPort
  env : List (String × String)
  requests : List (String × Int)
  limits : List (String × Int)
  privileged : Option Bool
  allowPrivilegeEscalation : Option Bool
  readOnlyRootFilesystem : Option Bool
  dropCapabilities : List String
  readinessProbe : Option Probe
  terminationMessagePath : String
  terminationMessagePolicy : String
  other : List (String × String) := []
deriving DecidableEq

structure PodSpec where
  automountServiceAccountToken : Option Bool
  serviceAccountName : String
  deprecatedServiceAccount : String
  restartPolicy : String
  dnsPolicy : String
  schedulerName : String
  terminationGracePeriodSeconds : Option Int
  enableServiceLinks : Option Bool
  runAsNonRoot : Option Bool
  seccompProfile : Option String
  containers : List Container
  other : List (String × String) := []
deriving DecidableEq

structure DeploymentSpec where
  replicas : Option Int
  selector : List (String × String)
  strategy : String
  revisionHistoryLimit : Option Int
  progressDeadlineSeconds : Option Int
  templateLabels : List (String × String)
  templateAnnotations : List (String × String)
  template : PodSpec
  other : List (String × String) := []
deriving DecidableEq

structure DeploymentStatus where
  observedGeneration : Int := 0
  updatedReplicas : Int := 0
  replicas : Int := 0
  readyReplicas : Int := 0
  availableReplicas : Int := 0
  unavailableReplicas : Int := 0
  progressDeadlineExceeded : Bool := false
deriving DecidableEq

structure Deployment extends ObjectMeta where
  spec : DeploymentSpec
  generation : Int := 0
  status : DeploymentStatus := {}
deriving DecidableEq

structure ServicePort where
  name : String
  port : Int
  targetPort : String
  protocol : String
deriving DecidableEq

structure ServiceSpec where
  type : String
  selector : List (String × String)
  ports : List ServicePort
  sessionAffinity : String
  internalTrafficPolicy : Option String
  clusterIP : String := ""
  clusterIPs : List String := []
  ipFamilies : List String := []
  ipFamilyPolicy : Option String := none
  other : List (String × String) := []
deriving DecidableEq

structure Service extends ObjectMeta where
  spec : ServiceSpec
deriving DecidableEq

structure ReplicaSet extends ObjectMeta where
deriving DecidableEq

structure Pod extends ObjectMeta where
  ready : Bool := false
deriving DecidableEq

structure TargetRef where
  kind : String
  namespaceName : String
  name : String
  uid : String
deriving DecidableEq

structure Endpoint where
  ready : Option Bool
  terminating : Option Bool
  addresses : List String
  targetRef : Option TargetRef
deriving DecidableEq

structure EndpointPort where
  name : Option String
  port : Option Int
  protocol : Option String
deriving DecidableEq

structure EndpointSlice extends ObjectMeta where
  ports : List EndpointPort
  endpoints : List Endpoint
deriving DecidableEq

/-! ## Workloads -/

structure Template where
  id : String
  image : String
  port : Int
  env : List (String × String)
  cpuRequest : String
  cpuLimit : String
  memoryRequest : String
  memoryLimit : String
  probePath : String
deriving DecidableEq

inductive DesiredState where
  | running
  | deleted
deriving DecidableEq

inductive Status where
  | pending
  | provisioning
  | ready
  | failed
  | deleting
  | deleted
deriving DecidableEq

/-- A row of the workload table. The UID of an object is empty until it is recorded. -/
structure Workload where
  id : String
  developerID : String
  templateID : String
  snapshot : Template
  templateDigest : String
  namespaceName : String
  installationID : String
  desiredState : DesiredState
  status : Status
  revision : Nat
  deploymentName : String
  serviceName : String
  deploymentUID : String
  serviceUID : String
  lastError : String
deriving DecidableEq

def installationLabel : String := "console.syntrix.io/installation"
def workloadLabel : String := "console.syntrix.io/workload"
def developerAnnotation : String := "console.syntrix.io/developer"
def digestAnnotation : String := "console.syntrix.io/template-digest"

def labelsFor (w : Workload) : List (String × String) :=
  [(installationLabel, w.installationID), (workloadLabel, w.id)]

def annotationsFor (w : Workload) : List (String × String) :=
  [( developerAnnotation, w.developerID), ( digestAnnotation, w.templateDigest), (installationLabel, w.installationID),
    (workloadLabel, w.id)]

def carries (actual wanted : List (String × String)) : Bool := wanted.all fun kv => lookup actual kv.1 = kv.2

def labelsMatch (m : ObjectMeta) (w : Workload) : Bool := carries m.labels (labelsFor w)

def annotationsMatch (m : ObjectMeta) (w : Workload) : Bool := carries m.annotations (annotationsFor w)

def metadataMatches (m : ObjectMeta) (w : Workload) : Bool :=
  m.namespaceName = w.namespaceName && labelsMatch m w && annotationsMatch m w

section Desired

-- A quantity in thousandths, rounded up; nothing when it cannot be parsed.
variable (parseQuantity : String → Option Int)

def quantities (t : Template) : Option (Int × Int × Int × Int) := do
  let positive (value : String) : Option Int := (parseQuantity value).filter fun q => 0 < q
  let cpuRequest ← positive t.cpuRequest
  let memoryRequest ← positive t.memoryRequest
  let cpuLimit ← positive t.cpuLimit
  let memoryLimit ← positive t.memoryLimit
  if cpuRequest > cpuLimit ∨ memoryRequest > memoryLimit then none
  else some (cpuRequest, memoryRequest, cpuLimit, memoryLimit)

/-- The Deployment of a workload; nothing when its template is invalid. -/
def deploymentFor (w : Workload) : Option Deployment :=
  let t := w.snapshot
  (quantities parseQuantity t).bind fun (cpuRequest, memoryRequest, cpuLimit, memoryLimit) =>
    if t.image = "" ∨ t.port < 1 ∨ t.port > 65535 ∨ t.probePath.front? ≠ some '/' then none
    else some {
      name := w.deploymentName
      namespaceName := w.namespaceName
      labels := labelsFor w
      annotations := annotationsFor w
      spec := {
        replicas := some 1
        selector := labelsFor w
        strategy := "Recreate"
        revisionHistoryLimit := some 0
        progressDeadlineSeconds := some 600
        templateLabels := labelsFor w
        templateAnnotations := annotationsFor w
        template := {
          automountServiceAccountToken := some false
          serviceAccountName := "default"
          deprecatedServiceAccount := ""
          restartPolicy := "Always"
          dnsPolicy := "ClusterFirst"
          schedulerName := "default-scheduler"
          terminationGracePeriodSeconds := some 30
          enableServiceLinks := some false
          runAsNonRoot := some true
          seccompProfile := some "RuntimeDefault"
          containers := [{
            name := "service"
            image := t.image
            imagePullPolicy := "IfNotPresent"
            ports := [⟨"http", t.port, "TCP"⟩]
            env := t.env.mergeSort fun a b => a.1 ≤ b.1
            requests := [("cpu", cpuRequest), ("memory", memoryRequest)]
            limits := [("cpu", cpuLimit), ("memory", memoryLimit)]
            privileged := some false
            allowPrivilegeEscalation := some false
            readOnlyRootFilesystem := some false
            dropCapabilities := ["ALL"]
            readinessProbe := some ⟨t.probePath, "http", "HTTP", 1, 5, 1, 3⟩
            terminationMessagePath := "/dev/termination-log"
            terminationMessagePolicy := "File" }] } } }

theorem deploymentFor_toObjectMeta {w : Workload} {d : Deployment} (h : deploymentFor parseQuantity w = some d) :
    d.toObjectMeta =
      { name := w.deploymentName, namespaceName := w.namespaceName, labels := labelsFor w, annotations := annotationsFor w } := by
  obtain ⟨_, _, h⟩ := Option.bind_eq_some_iff.mp h
  obtain ⟨_, h⟩ := Option.ite_none_left_eq_some.mp h
  cases h
  rfl

end Desired

def serviceFor (w : Workload) (deploymentUID : String) : Service where
  name := w.serviceName
  namespaceName := w.namespaceName
  labels := labelsFor w
  annotations := annotationsFor w
  ownerReferences := [⟨"apps/v1", "Deployment", w.deploymentName, deploymentUID, some true, some true⟩]
  spec := {
    type := "ClusterIP"
    selector := labelsFor w
    ports := [⟨"http", w.snapshot.port, "http", "TCP"⟩]
    sessionAffinity := "None"
    internalTrafficPolicy := some "Cluster" }

/-! ## Checks -/

def verifyMetadata (actual desired : ObjectMeta) (expectedUID : String) : Option String :=
  if actual.uid = "" || (expectedUID ≠ "" && actual.uid ≠ expectedUID) || actual.namespaceName ≠ desired.namespaceName ||
      actual.name ≠ desired.name then some "kubernetes_resource_identity_conflict"
  else if !carries actual.labels desired.labels || !carries actual.annotations desired.annotations ||
      actual.ownerReferences ≠ desired.ownerReferences then some "kubernetes_resource_ownership_conflict"
  else none

/-- The API server writes the service account under its former name too. -/
def normalizeDeployment (spec : DeploymentSpec) : DeploymentSpec :=
  if spec.template.deprecatedServiceAccount = spec.template.serviceAccountName then
    { spec with template := { spec.template with deprecatedServiceAccount := "" } }
  else spec

def verifyDeployment (actual desired : Deployment) (expectedUID : String) : Option String :=
  (verifyMetadata actual.toObjectMeta desired.toObjectMeta expectedUID).or
    (if normalizeDeployment actual.spec ≠ desired.spec then some "kubernetes_deployment_spec_conflict" else none)

def normalizeService (spec : ServiceSpec) : ServiceSpec :=
  { spec with clusterIP := "", clusterIPs := [], ipFamilies := [], ipFamilyPolicy := none }

def verifyService (actual desired : Service) (expectedUID : String) : Option String :=
  (verifyMetadata actual.toObjectMeta desired.toObjectMeta expectedUID).or
    (if normalizeService actual.spec ≠ desired.spec then some "kubernetes_service_spec_conflict" else none)

structure Verified (actual desired : ObjectMeta) (expectedUID : String) : Prop where
  uid : actual.uid ≠ ""
  expected : expectedUID ≠ "" → actual.uid = expectedUID
  namespaceName : actual.namespaceName = desired.namespaceName
  name : actual.name = desired.name
  labels : carries actual.labels desired.labels = true
  annotations : carries actual.annotations desired.annotations = true
  owners : actual.ownerReferences = desired.ownerReferences

theorem verifyMetadata_eq_none_iff (actual desired : ObjectMeta) (expectedUID : String) :
    verifyMetadata actual desired expectedUID = none ↔ Verified actual desired expectedUID := by
  unfold verifyMetadata
  constructor
  · intro h
    split at h
    · cases h
    split at h
    · cases h
    rename_i hIdentity hOwnership
    simp only [Bool.or_eq_true, decide_eq_true_eq, Bool.and_eq_true, not_or, not_and, not_not, Bool.not_eq_true',
      Bool.not_eq_false] at hIdentity hOwnership
    obtain ⟨⟨⟨hUID, hExpected⟩, hNamespace⟩, hName⟩ := hIdentity
    exact ⟨hUID, hExpected, hNamespace, hName, hOwnership.1.1, hOwnership.1.2, hOwnership.2⟩
  · rintro ⟨hUID, hExpected, hNamespace, hName, hLabels, hAnnotations, hOwners⟩
    rw [if_neg, if_neg]
    · simp [hLabels, hAnnotations, hOwners]
    · simp only [hUID, hNamespace, hName]
      simpa using hExpected

theorem verifyDeployment_eq_none_iff (actual desired : Deployment) (expectedUID : String) :
    verifyDeployment actual desired expectedUID = none ↔
      Verified actual.toObjectMeta desired.toObjectMeta expectedUID ∧ normalizeDeployment actual.spec = desired.spec := by
  rw [verifyDeployment, Option.or_eq_none_iff, verifyMetadata_eq_none_iff]
  simp

theorem verifyService_eq_none_iff (actual desired : Service) (expectedUID : String) :
    verifyService actual desired expectedUID = none ↔
      Verified actual.toObjectMeta desired.toObjectMeta expectedUID ∧ normalizeService actual.spec = desired.spec := by
  rw [verifyService, Option.or_eq_none_iff, verifyMetadata_eq_none_iff]
  simp

end Syntrix.Console
