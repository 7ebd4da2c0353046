import Syntrix.Console.Reconcile
import Syntrix.Lib.Tables

/-! # Workloads touch only their own objects

Whatever happens between two calls, a reconciler deletes by the UID of an object it has checked; rows
keep the UIDs they have recorded and the wish to be deleted; and a workload is recorded as deleted only
by a reconciliation that found nothing of it.
-/
namespace Syntrix.Console

open Lib List Option Function

/-- What was removed had the UID of an object that the reconciler had read and found to be the workload's own. -/
def Owned (e : Executor) (d : Deletion) : Prop :=
  (∃ ns name uid actual, d.call = .deleteDeployment ns name uid ∧ ⟨.getDeployment ns name, .ok actual⟩ ∈ d.seen ∧
    actual.uid = d.removed.uid ∧ OwnDeployment e d.workload actual) ∨
  ∃ ns name uid actual, d.call = .deleteService ns name uid ∧ ⟨.getService ns name, .ok actual⟩ ∈ d.seen ∧
    actual.uid = d.removed.uid ∧ OwnService d.workload actual

theorem owned_of_deleted {e : Executor} {w : Workload} {seen : Seen} {cluster : Cluster} {c : ApiCall} {m : ObjectMeta}
    (hProper : Proper e w seen c) (hDeleted : cluster.deleted c = some m) : Owned e ⟨w, seen, c, m⟩ := by
  cases c with
  | deleteDeployment ns name uid =>
    obtain ⟨actual, hSeen, hUID, hOwn⟩ := hProper
    have hm : m.uid = uid := of_decide_eq_true (filter_eq_some_iff.mp hDeleted).2
    exact .inl ⟨ns, name, uid, actual, rfl, hSeen, hUID.trans hm.symm, hOwn⟩
  | deleteService ns name uid =>
    obtain ⟨actual, hSeen, hUID, hOwn⟩ := hProper
    have hm : m.uid = uid := of_decide_eq_true (filter_eq_some_iff.mp hDeleted).2
    exact .inr ⟨ns, name, uid, actual, rfl, hSeen, hUID.trans hm.symm, hOwn⟩
  | _ => cases hDeleted

section Rows

variable {row w next : Workload} {outcome : Outcome}

theorem reconciled_spec (h : reconciled row w outcome = some next) (hUID : row.deploymentUID = w.deploymentUID)
    (hServiceUID : row.serviceUID = w.serviceUID) :
    next.id = row.id ∧ next.desiredState = row.desiredState ∧ (row.deploymentUID ≠ "" → next.deploymentUID = row.deploymentUID) ∧
      (row.serviceUID ≠ "" → next.serviceUID = row.serviceUID) := by
  obtain ⟨hKept, h⟩ := ite_none_left_eq_some.mp h
  cases h
  rw [not_or, not_and, not_and, not_not, not_not] at hKept
  rw [hUID, hServiceUID]
  exact ⟨rfl, rfl, hKept.1, hKept.2⟩

theorem deleted_of_reconciled (h : reconciled row w outcome = some next) (hStatus : next.status = .deleted) :
    outcome.1.deleted = true := by
  obtain ⟨_, h⟩ := ite_none_left_eq_some.mp h
  cases h
  unfold reconcileStatus at hStatus
  split at hStatus
  · cases hStatus
  · cases hStatus
  · by_contra hNot
    simp [hNot] at hStatus
  · split at hStatus <;> cases hStatus

end Rows

/-- Every reconciliation is in the course of the executor's program, and a lock is held on the row the
reconciliation read. -/
structure Consistent (svc : WorkloadService) (s : State) : Prop where
  programs : ∀ n t, s.threads n = some t →
    t.program.Meets (Proper svc.executor t.workload) (Reported t.workload) t.seen
  ids : ∀ id row, s.rows id = some row → row.id = id
  locked : ∀ id n, s.locks id = some n → ∃ t row, s.threads n = some t ∧ t.workload.id = id ∧ s.rows id = some row ∧
    t.workload = { row with status := t.workload.status }
  deletions : ∀ d ∈ s.deletions, Owned svc.executor d
  completions : ∀ c ∈ s.completions, NothingLeft c.workload c.seen
  recorded : ∀ id row, s.rows id = some row → row.status = .deleted → ∃ c ∈ s.completions, c.workload.id = id

section Steps

variable {svc : WorkloadService} {s s' : State}

theorem Consistent.start (svc : WorkloadService) (cluster : Cluster) : Consistent svc (start cluster) where
  programs _ _ h := by cases h
  ids _ _ h := by cases h
  locked _ _ h := by cases h
  deletions _ h := (not_mem_nil h).elim
  completions _ h := (not_mem_nil h).elim
  recorded _ _ h := by cases h

variable (h : Consistent svc s)

include h

theorem Consistent.create {developerID templateID key id : String} :
    Consistent svc (createStep svc s developerID templateID key id) := by
  unfold createStep
  split
  · exact h
  rename_i hNew
  simp only [Bool.or_eq_true, not_or, Bool.not_eq_true, isSome_eq_false_iff, isNone_iff_eq_none] at hNew
  split
  · exact h
  refine ⟨h.programs, fun i row hRow => ?_, fun i n hLock => ?_, h.deletions, h.completions, fun i row hRow hStatus => ?_⟩
  · rcases update_eq_some_iff.mp hRow with ⟨rfl, ⟨⟩⟩ | ⟨-, hRow⟩
    · rfl
    · exact h.ids i row hRow
  · obtain ⟨t, row, hThread, hId, hRow, hSame⟩ := h.locked i n hLock
    have hi : i ≠ id := fun hi => by cases hRow.symm.trans (hi ▸ hNew.2)
    exact ⟨t, row, hThread, hId, (update_of_ne hi ..).trans hRow, hSame⟩
  · rcases update_eq_some_iff.mp hRow with ⟨rfl, ⟨⟩⟩ | ⟨-, hRow⟩
    · cases hStatus
    · exact h.recorded i row hRow hStatus

theorem Consistent.requestDelete {developerID id : String}
    (hStep : requestDeleteStep s developerID id = some s') : Consistent svc s' := by
  unfold requestDeleteStep at hStep
  split at hStep
  · cases hStep
    exact h
  rename_i row hRow
  split at hStep
  · cases hStep
    exact h
  obtain ⟨hUnlocked, hStep⟩ := ite_none_left_eq_some.mp hStep
  split at hStep
  · cases hStep
    exact h
  cases hStep
  refine ⟨h.programs, fun i row' hRow' => ?_, fun i n hLock => ?_, h.deletions, h.completions, fun i row' hRow' hStatus => ?_⟩
  · rcases update_eq_some_iff.mp hRow' with ⟨rfl, ⟨⟩⟩ | ⟨-, hRow'⟩
    · exact h.ids i row hRow
    · exact h.ids i row' hRow'
  · obtain ⟨t, row', hThread, hId, hRow', hSame⟩ := h.locked i n hLock
    have hi : i ≠ id := fun hi => hUnlocked (by rw [← hi]; exact isSome_iff_exists.mpr ⟨n, hLock⟩)
    exact ⟨t, row', hThread, hId, (update_of_ne hi ..).trans hRow', hSame⟩
  · rcases update_eq_some_iff.mp hRow' with ⟨rfl, ⟨⟩⟩ | ⟨-, hRow'⟩
    · cases hStatus
    · exact h.recorded i row' hRow' hStatus

variable {id : String} {n : Nat}

theorem Consistent.begin (hStep : beginStep svc s n id = some s') : Consistent svc s' := by
  unfold beginStep at hStep
  split at hStep
  · rename_i row hRow hFree hUnlocked
    cases hStep
    refine { h with programs := fun m t hThread => ?_, locked := fun i m hLock => ?_ }
    · rcases update_eq_some_iff.mp hThread with ⟨rfl, ⟨⟩⟩ | ⟨-, hThread⟩
      · split
        · exact delete_meets
        · exact ensure_meets
      · exact h.programs m t hThread
    · rcases update_eq_some_iff.mp hLock with ⟨rfl, ⟨⟩⟩ | ⟨-, hLock⟩
      · exact ⟨_, row, update_self .., h.ids i row hRow, hRow, rfl⟩
      obtain ⟨t, row', hThread, hRest⟩ := h.locked i m hLock
      have hm : m ≠ n := fun hm => by cases hThread.symm.trans (hm ▸ hFree)
      exact ⟨t, row', (update_of_ne hm ..).trans hThread, hRest⟩
  · cases hStep

theorem Consistent.call {uid : String} {fault : Option Fault} (hStep : callStep s n uid fault = some s') : Consistent svc s' := by
  unfold callStep at hStep
  split at hStep
  · cases hStep
  rename_i thread hThread
  split at hStep
  · cases hStep
  rename_i c next hProgram
  have hMeets := h.programs n thread hThread
  rw [hProgram] at hMeets
  cases hStep
  refine ⟨fun m t ht => ?_, h.ids, fun i m hLock => ?_, fun d hd => ?_, h.completions, h.recorded⟩
  · rcases update_eq_some_iff.mp ht with ⟨rfl, ⟨⟩⟩ | ⟨-, ht⟩
    · exact hMeets.2 _
    · exact h.programs m t ht
  · obtain ⟨t, row, ht, hRest⟩ := h.locked i m hLock
    by_cases hm : m = n
    · subst hm
      cases hThread.symm.trans ht
      exact ⟨_, row, update_self .., hRest⟩
    · exact ⟨t, row, (update_of_ne hm ..).trans ht, hRest⟩
  · rcases mem_append.mp hd with hBefore | hNew
    · exact h.deletions d hBefore
    obtain ⟨m, hm, rfl⟩ := List.mem_map.mp hNew
    split at hm
    · exact owned_of_deleted hMeets.1 (Option.mem_toList.mp hm)
    · exact (not_mem_nil hm).elim

omit h in
theorem release_eq_some {n m : Nat} {id i : String} (h : release s n id i = some m) :
    s.locks i = some m ∧ ¬ (i = id ∧ m = n) := by
  unfold release at h
  split at h
  · rename_i hHeld
    obtain ⟨-, ⟨⟩⟩ | ⟨hi, h⟩ := update_eq_some_iff.mp h
    exact ⟨h, fun hBoth => hi hBoth.1⟩
  · rename_i hNotHeld
    refine ⟨h, ?_⟩
    rintro ⟨rfl, rfl⟩
    exact hNotHeld h

theorem Consistent.ended {thread : Thread} (hThread : s.threads n = some thread) {i : String} {m : Nat}
    (hLock : release s n thread.workload.id i = some m) :
    ∃ t row, Function.update s.threads n none m = some t ∧ t.workload.id = i ∧ s.rows i = some row ∧
      t.workload = { row with status := t.workload.status } := by
  obtain ⟨hHeld, hOther⟩ := release_eq_some hLock
  obtain ⟨t, row, ht, hId, hRest⟩ := h.locked i m hHeld
  have hm : m ≠ n := by
    rintro rfl
    cases hThread.symm.trans ht
    exact hOther ⟨hId.symm, rfl⟩
  exact ⟨t, row, (update_of_ne hm ..).trans ht, hId, hRest⟩

theorem Consistent.remaining {m : Nat} {t : Thread} (ht : Function.update s.threads n none m = some t) :
    t.program.Meets (Proper svc.executor t.workload) (Reported t.workload) t.seen := by
  obtain ⟨-, ⟨⟩⟩ | ⟨-, ht⟩ := update_eq_some_iff.mp ht
  exact h.programs m t ht

theorem Consistent.commit (hStep : commitStep s n = some s') : Consistent svc s' := by
  unfold commitStep at hStep
  split at hStep
  · cases hStep
  rename_i thread hThread
  split at hStep
  · rename_i outcome row hProgram hRow
    obtain ⟨hHeld, hStep⟩ := ite_none_right_eq_some.mp hStep
    split at hStep
    · cases hStep
      exact { h with programs := fun m t ht => h.remaining ht, locked := fun i m hLock => h.ended hThread hLock }
    rename_i next hNext
    cases hStep
    have hReported := h.programs n thread hThread
    rw [hProgram] at hReported
    have hNothing : next.status = .deleted → NothingLeft thread.workload thread.seen :=
      fun hStatus => hReported (deleted_of_reconciled hNext hStatus)
    have hId : next.id = row.id := by
      obtain ⟨_, hNext⟩ := ite_none_left_eq_some.mp hNext
      cases hNext
      rfl
    refine ⟨fun m t ht => h.remaining ht, fun i row' hRow' => ?_, fun i m hLock => ?_, h.deletions, fun c hc => ?_,
      fun i row' hRow' hStatus => ?_⟩
    · rcases update_eq_some_iff.mp hRow' with ⟨rfl, ⟨⟩⟩ | ⟨-, hRow'⟩
      · exact hId.trans (h.ids _ row hRow)
      · exact h.ids i row' hRow'
    · obtain ⟨t, row', ht, hWorkload, hRow', hSame⟩ := h.ended hThread hLock
      have hi : i ≠ thread.workload.id := by
        rintro rfl
        obtain ⟨hOld, hOther⟩ := release_eq_some hLock
        exact hOther ⟨rfl, some.inj (hOld.symm.trans hHeld)⟩
      exact ⟨t, row', ht, hWorkload, (update_of_ne hi ..).trans hRow', hSame⟩
    · rcases mem_append.mp hc with hBefore | hNew
      · exact h.completions c hBefore
      split at hNew
      · rename_i hStatus
        cases mem_singleton.mp hNew
        exact hNothing hStatus
      · exact (not_mem_nil hNew).elim
    · rcases update_eq_some_iff.mp hRow' with ⟨rfl, ⟨⟩⟩ | ⟨-, hRow'⟩
      · rw [if_pos hStatus]
        exact ⟨_, mem_append_right _ mem_cons_self, rfl⟩
      · obtain ⟨c, hc, hcId⟩ := h.recorded i row' hRow' hStatus
        exact ⟨c, mem_append_left _ hc, hcId⟩
  · cases hStep

theorem Consistent.step {a : Action} (hStep : step svc s a = some s') : Consistent svc s' := by
  cases a with
  | external cluster =>
    cases hStep
    exact { h with }
  | create developerID templateID key id =>
    cases hStep
    exact h.create
  | requestDelete developerID id => exact h.requestDelete hStep
  | begin n id => exact h.begin hStep
  | call n uid fault => exact h.call hStep
  | commit n => exact h.commit hStep
  | loseSession n =>
    obtain ⟨thread, _, rfl⟩ := map_eq_some_iff.mp hStep
    exact { h with locked := fun i m hLock => h.locked i m (release_eq_some hLock).1 }
  | stop n =>
    obtain ⟨thread, hThread, rfl⟩ := map_eq_some_iff.mp hStep
    exact { h with programs := fun m t ht => h.remaining ht, locked := fun i m hLock => h.ended hThread hLock }

/-! ## What rows keep -/

/-- A row keeps the UIDs it has recorded; one that is to be deleted stays so, and is not passed to Ensure. -/
def RowKept (s s' : State) (id : String) (row : Workload) : Prop :=
  ∃ row', s'.rows id = some row' ∧ (row.deploymentUID ≠ "" → row'.deploymentUID = row.deploymentUID) ∧
    (row.serviceUID ≠ "" → row'.serviceUID = row.serviceUID) ∧
    (row.desiredState = .deleted → row'.desiredState = .deleted ∧ s'.ensured.count id = s.ensured.count id)

variable {row : Workload}

omit h in
theorem RowKept.of_eq (hRow : s'.rows id = some row) (hEnsured : s'.ensured = s.ensured) : RowKept s s' id row :=
  ⟨row, hRow, fun _ => rfl, fun _ => rfl, fun h => ⟨h, by rw [hEnsured]⟩⟩

theorem rowKept_of_step {a : Action} (hStep : step svc s a = some s') (hRow : s.rows id = some row) : RowKept s s' id row := by
  cases a with
  | external cluster =>
    cases hStep
    exact .of_eq hRow rfl
  | create developerID templateID key i =>
    cases hStep
    unfold createStep
    split
    · exact .of_eq hRow rfl
    rename_i hNew
    split
    · exact .of_eq hRow rfl
    have hi : id ≠ i := by
      rintro rfl
      simp [hRow] at hNew
    exact .of_eq ((update_of_ne hi ..).trans hRow) rfl
  | requestDelete developerID i =>
    simp only [Console.step, requestDeleteStep] at hStep
    split at hStep
    · cases hStep
      exact .of_eq hRow rfl
    rename_i row' hRow'
    split at hStep
    · cases hStep
      exact .of_eq hRow rfl
    split at hStep
    · cases hStep
    split at hStep
    · cases hStep
      exact .of_eq hRow rfl
    cases hStep
    by_cases hi : id = i
    · subst hi
      cases hRow.symm.trans hRow'
      exact ⟨_, update_self .., fun _ => rfl, fun _ => rfl, fun _ => ⟨rfl, rfl⟩⟩
    · exact .of_eq ((update_of_ne hi ..).trans hRow) rfl
  | begin n i =>
    simp only [Console.step, beginStep] at hStep
    split at hStep
    · rename_i row' hRow' _ _
      cases hStep
      refine ⟨row, hRow, fun _ => rfl, fun _ => rfl, fun hDeleted => ⟨hDeleted, ?_⟩⟩
      split
      · rfl
      rename_i hRunning
      have hi : i ≠ id := by
        rintro rfl
        cases hRow.symm.trans hRow'
        exact hRunning hDeleted
      rw [count_append, count_singleton, if_neg (by simpa using hi), Nat.add_zero]
    · cases hStep
  | call n uid fault =>
    simp only [Console.step, callStep] at hStep
    split at hStep
    · cases hStep
    split at hStep
    · cases hStep
    · cases hStep
      exact .of_eq hRow rfl
  | commit n =>
    simp only [Console.step, commitStep] at hStep
    split at hStep
    · cases hStep
    rename_i thread hThread
    split at hStep
    · rename_i outcome row' hProgram hRow'
      obtain ⟨hHeld, hStep⟩ := ite_none_right_eq_some.mp hStep
      split at hStep
      · cases hStep
        exact .of_eq hRow rfl
      rename_i next hNext
      cases hStep
      by_cases hi : id = thread.workload.id
      · subst hi
        cases hRow.symm.trans hRow'
        obtain ⟨t, row', ht, _, hRow', hSame⟩ := h.locked _ n hHeld
        cases hThread.symm.trans ht
        cases hRow.symm.trans hRow'
        obtain ⟨_, hDesired, hUID, hServiceUID⟩ :=
          reconciled_spec hNext (by rw [hSame]) (by rw [hSame])
        exact ⟨next, update_self .., hUID, hServiceUID, fun hDeleted => ⟨hDesired.trans hDeleted, rfl⟩⟩
      · exact .of_eq ((update_of_ne hi ..).trans hRow) rfl
    · cases hStep
  | loseSession n | stop n =>
    obtain ⟨thread, _, rfl⟩ := map_eq_some_iff.mp hStep
    exact .of_eq hRow rfl

omit h

theorem RowKept.trans {s'' : State} (h : RowKept s s' id row)
    (h' : ∀ row', s'.rows id = some row' → RowKept s' s'' id row') : RowKept s s'' id row := by
  obtain ⟨row', hRow', hUID, hServiceUID, hDeleted⟩ := h
  obtain ⟨row'', hRow'', hUID', hServiceUID', hDeleted'⟩ := h' row' hRow'
  refine ⟨row'', hRow'', fun hSet => ?_, fun hSet => ?_, fun hWish => ?_⟩
  · rw [hUID' (by rwa [hUID hSet]), hUID hSet]
  · rw [hServiceUID' (by rwa [hServiceUID hSet]), hServiceUID hSet]
  · obtain ⟨hNext, hCount⟩ := hDeleted hWish
    obtain ⟨hLast, hCount'⟩ := hDeleted' hNext
    exact ⟨hLast, hCount'.trans hCount⟩

end Steps

variable {svc : WorkloadService} {cluster : Cluster}

/-- In every run, from every cluster: what was deleted was the workload's own; a workload was recorded as
deleted only when nothing of it was found; and from there on rows keep their UIDs and the wish to be
deleted, after which they are not passed to Ensure. -/
theorem provisioning_touches_own_objects {actions : List Action} {s : State}
    (h : Runs (step svc) (fun _ _ => True) (start cluster) actions s) :
    (∀ d ∈ s.deletions, Owned svc.executor d) ∧
    (∀ c ∈ s.completions, NothingLeft c.workload c.seen) ∧
    (∀ id row, s.rows id = some row → row.status = .deleted → ∃ c ∈ s.completions, c.workload.id = id) ∧
    ∀ more s', Runs (step svc) (fun _ _ => True) s more s' → ∀ id row, s.rows id = some row → RowKept s s' id row := by
  have hConsistent : Consistent svc s := h.invariant (Consistent.start svc cluster) fun _ _ _ h _ hStep => h.step hStep
  refine ⟨hConsistent.deletions, hConsistent.completions, hConsistent.recorded, fun more s' hMore id row hRow => ?_⟩
  have hKept : Consistent svc s' ∧ RowKept s s' id row := by
    refine hMore.invariant (I := fun s' => Consistent svc s' ∧ RowKept s s' id row) ⟨hConsistent, .of_eq hRow rfl⟩ ?_
    rintro s₁ a s₂ ⟨hC, hKept⟩ - hStep
    exact ⟨hC.step hStep, hKept.trans fun row' hRow' => rowKept_of_step hC hStep hRow'⟩
  exact hKept.2

/-! ## A whole life -/

def exampleService : WorkloadService where
  executor :=
    { namespaceName := "apps", installationID := "console", parseQuantity := fun _ => some 1, digest := fun _ => "digest",
      validTemplate := fun _ => true }
  templates := fun id => some ⟨id, "image", 80, [], "1", "1", "1", "1", "/ready"⟩

def exampleID : String := "0123456789abcdef0123456789abcdef"

def exampleLife : List Action :=
  [.create "dev" "web" "key" exampleID,
    .begin 0 exampleID, .call 0 "d1" none, .call 0 "d1" none, .call 0 "s1" none, .call 0 "s1" none, .commit 0,
    .requestDelete "dev" exampleID,
    .begin 0 exampleID, .call 0 "" none, .call 0 "" none, .call 0 "" none, .call 0 "" none, .commit 0,
    .external ⟨[], [], [], [], []⟩,
    .begin 0 exampleID, .call 0 "" none, .call 0 "" none, .call 0 "" none, .call 0 "" none, .call 0 "" none, .commit 0]

theorem provisioning_touches_own_objects_life :
    ∃ s row, Runs (step exampleService) (fun _ _ => True) (start ⟨[], [], [], [], []⟩) exampleLife s ∧
      s.rows exampleID = some row ∧ row.deploymentUID = "d1" ∧ row.status = .deleted ∧ s.deletions.length = 2 ∧
      (∀ d ∈ s.deletions, Owned exampleService.executor d) ∧ ∃ c ∈ s.completions, NothingLeft c.workload c.seen := by
  obtain ⟨s, hRuns, hRow, hDeletions⟩ : ∃ s, Runs (step exampleService) (fun _ _ => True) (start ⟨[], [], [], [], []⟩) exampleLife s ∧
      (s.rows exampleID).map (fun row => (row.deploymentUID, row.status)) = some ("d1", .deleted) ∧ s.deletions.length = 2 :=
    Runs.exists_of_foldlM (by decide +kernel)
  obtain ⟨row, hRow, hFields⟩ := Option.map_eq_some_iff.mp hRow
  obtain ⟨hUID, hStatus⟩ := Prod.mk.inj hFields
  obtain ⟨hOwned, hCompletions, hRecorded, _⟩ := provisioning_touches_own_objects hRuns
  obtain ⟨c, hc, _⟩ := hRecorded exampleID row hRow hStatus
  exact ⟨s, row, hRuns, hRow, hUID, hStatus, hDeletions, hOwned, c, hc, hCompletions c hc⟩

end Syntrix.Console
