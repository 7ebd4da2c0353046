import Syntrix.Console.Executor

/-! # What the executor may call

A deletion names the UID of an object that was read before in the same run and passed the checks, and a
workload is reported as deleted only after nothing of it was found.
-/
namespace Syntrix.Console

open Lib List

def OwnDeployment (e : Executor) (w : Workload) (actual : Deployment) : Prop :=
  ∃ desired, deploymentFor e.parseQuantity w = some desired ∧
    Verified actual.toObjectMeta desired.toObjectMeta w.deploymentUID ∧ normalizeDeployment actual.spec = desired.spec

/-- A Service that is the workload's own, owned by a Deployment of its name. -/
def OwnService (w : Workload) (actual : Service) : Prop :=
  ∃ deploymentUID, Verified actual.toObjectMeta (serviceFor w deploymentUID).toObjectMeta w.serviceUID ∧
    normalizeService actual.spec = (serviceFor w deploymentUID).spec

/-- An object is deleted by the UID it had when it passed the checks. -/
def Proper (e : Executor) (w : Workload) (seen : Seen) : ApiCall → Prop
  | .deleteDeployment namespaceName name uid =>
    ∃ actual, ⟨.getDeployment namespaceName name, .ok actual⟩ ∈ seen ∧ actual.uid = uid ∧ OwnDeployment e w actual
  | .deleteService namespaceName name uid =>
    ∃ actual, ⟨.getService namespaceName name, .ok actual⟩ ∈ seen ∧ actual.uid = uid ∧ OwnService w actual
  | _ => True

/-- Neither the Deployment nor the Service was there, and no ReplicaSet and no Pod of theirs. -/
def NothingLeft (w : Workload) (seen : Seen) : Prop :=
  ∃ (replicaSets : List ReplicaSet) (pods : List Pod) (rest : Seen),
    seen = [⟨.getDeployment w.namespaceName w.deploymentName, .error .notFound⟩,
      ⟨.getService w.namespaceName w.serviceName, .error .notFound⟩,
      ⟨.listReplicaSets w.namespaceName, .ok replicaSets⟩, ⟨.listPods w.namespaceName, .ok pods⟩] ++ rest ∧
    (∀ x ∈ rest, x.1 = .listEndpointSlices w.namespaceName none) ∧
    (w.deploymentUID ≠ "" → ∀ rs ∈ replicaSets, owns rs.toObjectMeta "Deployment" w.deploymentName w.deploymentUID = false) ∧
    ∀ pod ∈ pods, labelsMatch pod.toObjectMeta w = false ∧ annotationsMatch pod.toObjectMeta w = false

def Reported (w : Workload) (seen : Seen) (outcome : Outcome) : Prop :=
  outcome.1.deleted = true → NothingLeft w seen

theorem reported_of_not_deleted {w : Workload} {seen : Seen} {outcome : Outcome} (h : outcome.1.deleted = false) :
    Reported w seen outcome :=
  fun hDeleted => absurd (hDeleted.symm.trans h) (by decide)

section Ensure

variable {e : Executor} {w : Workload}

/-- Ensure deletes nothing. -/
def Harmless (c : ApiCall) : Prop :=
  match c with
  | .deleteDeployment .. => False
  | .deleteService .. => False
  | _ => True

theorem Harmless.proper {c : ApiCall} (h : Harmless c) (seen : Seen) : Proper e w seen c := by
  cases c <;> trivial

theorem ensureDeployment_harmless (desired : Deployment) (seen : Seen) :
    (ensureDeployment w desired).Meets (fun _ => Harmless) (fun _ _ => True) seen := by
  refine ⟨trivial, fun r => ?_⟩
  dsimp only
  split
  · split
    · trivial
    refine ⟨trivial, fun r => ?_⟩
    dsimp only
    split
    · exact ⟨trivial, fun _ => trivial⟩
    · trivial
  · trivial

theorem ensureService_harmless (desired : Service) (seen : Seen) :
    (ensureService w desired).Meets (fun _ => Harmless) (fun _ _ => True) seen := by
  refine ⟨trivial, fun r => ?_⟩
  dsimp only
  split
  · split
    · trivial
    refine ⟨trivial, fun r => ?_⟩
    dsimp only
    split
    · exact ⟨trivial, fun _ => trivial⟩
    · trivial
  · trivial

theorem targetReady_harmless (deployment : Deployment) (ref : TargetRef) (seen : Seen) :
    (targetReady w deployment ref).Meets (fun _ => Harmless) (fun _ _ => True) seen := by
  refine ⟨trivial, fun r => ?_⟩
  dsimp only
  split
  · trivial
  · trivial
  split
  · trivial
  split
  · trivial
  split
  · trivial
  refine ⟨trivial, fun r => ?_⟩
  dsimp only
  split
  · trivial
  · trivial
  · split <;> trivial

theorem anyTargetReady_harmless (deployment : Deployment) (refs : List TargetRef) (seen : Seen) :
    (anyTargetReady w deployment refs).Meets (fun _ => Harmless) (fun _ _ => True) seen := by
  induction refs generalizing seen with
  | nil => trivial
  | cons ref refs ih =>
    refine Calls.Meets.bind ((targetReady_harmless deployment ref seen).mono (fun _ _ h => h) fun seen r _ => ?_)
    split
    · exact ih seen
    · trivial

theorem ensureReady_harmless (o : Observation) (ho : o.deleted = false) (deployment : Deployment) (service : Service) (seen : Seen) :
    (ensureReady w o deployment service).Meets (fun _ => Harmless) (fun _ outcome => outcome.1.deleted = false) seen := by
  unfold ensureReady
  split
  · exact ho
  split
  · split <;> exact ho
  refine Calls.Meets.bind ⟨trivial, fun r => ?_⟩
  dsimp only
  split
  · exact ho
  · refine (anyTargetReady_harmless deployment _ _).mono (fun _ _ h => h) fun seen r _ => ?_
    split <;> exact ho

theorem ensure_harmless (seen : Seen) :
    (e.ensure w).Meets (fun _ => Harmless) (fun _ outcome => outcome.1.deleted = false) seen := by
  unfold Executor.ensure
  split
  · rfl
  split
  · rfl
  split
  · rfl
  refine Calls.Meets.bind ((ensureDeployment_harmless _ seen).mono (fun _ _ h => h) fun seen r _ => ?_)
  split
  · rfl
  refine Calls.Meets.bind ((ensureService_harmless _ seen).mono (fun _ _ h => h) fun seen r _ => ?_)
  split
  · rfl
  · exact ensureReady_harmless _ rfl _ _ seen

theorem ensure_meets : (e.ensure w).Meets (Proper e w) (Reported w) [] :=
  (ensure_harmless []).mono (fun _ _ h => h.proper _) fun _ _ h => reported_of_not_deleted h

end Ensure

section Delete

variable {e : Executor} {w : Workload}

def goneCalls (w : Workload) : Seen :=
  [⟨.getDeployment w.namespaceName w.deploymentName, .error .notFound⟩,
    ⟨.getService w.namespaceName w.serviceName, .error .notFound⟩]

theorem childrenRemain_meets (o : Observation) (ho : o.deploymentUID = w.deploymentUID) :
    (childrenRemain w o).Meets (Proper e w) (fun seen r => r = .ok false → NothingLeft w seen) (goneCalls w) := by
  refine ⟨trivial, fun r => ?_⟩
  dsimp only
  split
  · exact fun h => nomatch h
  rename_i replicaSets
  split
  · exact fun h => nomatch h
  rename_i hReplicaSets
  have hOwned : w.deploymentUID ≠ "" → ∀ rs ∈ replicaSets,
      owns rs.toObjectMeta "Deployment" w.deploymentName w.deploymentUID = false := by
    intro hUID rs hrs
    have hRemains : ¬ replicaSetRemains w o rs = true := fun h => hReplicaSets (any_eq_true.mpr ⟨rs, hrs, h⟩)
    rw [replicaSetRemains, if_pos (ho ▸ hUID), ho] at hRemains
    exact Bool.not_eq_true _ ▸ hRemains
  refine ⟨trivial, fun r => ?_⟩
  dsimp only
  split
  · exact fun h => nomatch h
  rename_i pods
  split
  · exact fun h => nomatch h
  rename_i hPods
  have hMarked : ∀ pod ∈ pods, labelsMatch pod.toObjectMeta w = false ∧ annotationsMatch pod.toObjectMeta w = false := by
    intro pod hpod
    have hRemains : ¬ podRemains w pod = true := fun h => hPods (any_eq_true.mpr ⟨pod, hpod, h⟩)
    simp only [podRemains, Bool.or_eq_true, not_or, Bool.not_eq_true] at hRemains
    exact ⟨hRemains.1.2, hRemains.1.1⟩
  split
  · exact fun _ => ⟨replicaSets, pods, [], rfl, fun _ h => (not_mem_nil h).elim, hOwned, hMarked⟩
  refine ⟨trivial, fun r => ?_⟩
  dsimp only
  split
  · exact fun h => nomatch h
  rename_i slices
  refine fun _ => ⟨replicaSets, pods, [⟨.listEndpointSlices w.namespaceName none, .ok slices⟩], rfl, ?_, hOwned, hMarked⟩
  intro x hx
  rw [mem_singleton.mp hx]

variable {o : Observation} {seen : Seen}

theorem deleteDeployment_meets {serviceFound : Bool} {deployment : Deployment}
    (ho : o.deleted = false) (hName : deployment.name = w.deploymentName)
    (hSeen : ⟨.getDeployment w.namespaceName w.deploymentName, .ok deployment⟩ ∈ seen) (hOwn : OwnDeployment e w deployment) :
    (deleteDeployment w o serviceFound (some deployment)).Meets (Proper e w) (Reported w) seen := by
  unfold deleteDeployment
  dsimp only
  split
  · exact reported_of_not_deleted ho
  refine ⟨⟨deployment, hName ▸ hSeen, rfl, hOwn⟩, fun r => ?_⟩
  dsimp only
  split <;> exact reported_of_not_deleted ho

theorem deleteChildren_meets (hUID : o.deploymentUID = w.deploymentUID) (ho : o.deleted = false) :
    (deleteDeployment w o false none).Meets (Proper e w) (Reported w) (goneCalls w) := by
  refine Calls.Meets.bind ((childrenRemain_meets o hUID).mono (fun _ _ h => h) fun seen r hr => ?_)
  split
  · exact reported_of_not_deleted ho
  · exact reported_of_not_deleted ho
  · exact fun _ => hr rfl

def Found (e : Executor) (w : Workload) (seen : Seen) (deployment : Option Deployment) : Prop :=
  ∀ d, deployment = some d → d.name = w.deploymentName ∧
    ⟨.getDeployment w.namespaceName w.deploymentName, .ok d⟩ ∈ seen ∧ OwnDeployment e w d

variable {deployment : Option Deployment}

theorem Found.append (h : Found e w seen deployment) (more : Seen) : Found e w (seen ++ more) deployment :=
  fun d hd => ⟨(h d hd).1, mem_append_left _ (h d hd).2.1, (h d hd).2.2⟩

theorem deleteFound_meets (ho : o.deleted = false)
    (h : Found e w seen deployment) : (deleteDeployment w o true deployment).Meets (Proper e w) (Reported w) seen := by
  cases deployment with
  | none => exact reported_of_not_deleted ho
  | some d =>
    obtain ⟨hName, hSeen, hOwn⟩ := h d rfl
    exact deleteDeployment_meets ho hName hSeen hOwn

theorem deleteService_meets {service : Service} (ho : o.deleted = false) (h : Found e w seen deployment)
    (hSeen : ⟨.getService w.namespaceName w.serviceName, .ok service⟩ ∈ seen) :
    (deleteService w o deployment service).Meets (Proper e w) (Reported w) seen := by
  unfold deleteService
  split
  · exact reported_of_not_deleted ho
  rename_i uid _
  split
  · exact reported_of_not_deleted ho
  rename_i hVerify
  obtain ⟨hVerified, hSpec⟩ := (verifyService_eq_none_iff _ _ _).mp hVerify
  have hName : service.name = w.serviceName := hVerified.name
  split
  · exact deleteFound_meets ho h
  refine ⟨⟨service, hName ▸ hSeen, rfl, ⟨uid, hVerified, hSpec⟩⟩, fun r => ?_⟩
  dsimp only
  split
  · exact reported_of_not_deleted ho
  · exact deleteFound_meets ho (h.append _)

theorem delete_meets : (e.delete w).Meets (Proper e w) (Reported w) [] := by
  unfold Executor.delete
  split
  · exact reported_of_not_deleted rfl
  split
  · exact reported_of_not_deleted rfl
  split
  · exact reported_of_not_deleted rfl
  rename_i desired hDesired
  refine ⟨trivial, fun r => ?_⟩
  dsimp only
  split
  · exact reported_of_not_deleted rfl
  rename_i deployment hRead
  have hFound : Found e w ([] ++ [⟨.getDeployment w.namespaceName w.deploymentName, r⟩]) deployment := by
    rintro d rfl
    unfold readDeployment at hRead
    split at hRead
    · cases hRead
    · cases hRead
    split at hRead
    · cases hRead
    rename_i hVerify
    cases hRead
    obtain ⟨hVerified, hSpec⟩ := (verifyDeployment_eq_none_iff _ _ _).mp hVerify
    have hName : desired.name = w.deploymentName := by rw [deploymentFor_toObjectMeta _ hDesired]
    exact ⟨hVerified.name.trans hName, mem_cons_self, desired, hDesired, hVerified, hSpec⟩
  refine ⟨trivial, fun r' => ?_⟩
  dsimp only
  split
  · cases deployment with
    | none =>
      have hGone : r = .error .notFound := by
        unfold readDeployment at hRead
        split at hRead
        · rfl
        · cases hRead
        · split at hRead <;> cases hRead
      subst hGone
      exact deleteChildren_meets rfl rfl
    | some d =>
      obtain ⟨hName, hSeen, hOwn⟩ := hFound d rfl
      exact deleteDeployment_meets rfl hName (mem_append_left _ hSeen) hOwn
  · exact reported_of_not_deleted rfl
  · exact deleteService_meets rfl (hFound.append _) (mem_append_right _ mem_cons_self)

end Delete

end Syntrix.Console
