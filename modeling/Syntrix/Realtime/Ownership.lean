import Syntrix.Realtime.Invalidation

/-! # Ownership over whole runs

An owner is invalidated at most once and only by the call that took it; its registration is in one hand until
one cleanup has it; and a new status leaves nothing of an older generation active. The hub does not wait for
the other calls: a callback that was decided on may come after a release, and an owner that another call is
releasing may still be listed.
-/
namespace Syntrix.Realtime

open Lib

def Owner.Registered (o : Owner) : Prop :=
  match o.subscriber with
  | .answered id _ => id ≠ ""
  | .rejected id => id ≠ ""
  | .releasing id _ => id ≠ ""
  | .finished id => id ≠ ""
  | .published => True
  | .calling => False
  | .failed => False

/-- The registration is with the call that made it, with the owner, or with a cleanup that has not started. -/
def Held (s : State) (k : Nat) (o : Owner) : Prop :=
  (match o.subscriber with
    | .answered _ _ => True
    | .rejected _ => True
    | .releasing _ _ => True
    | .published => ∀ reason, o.release ≠ .done reason
    | _ => False) ∨ k ∈ s.cleanups ∨ k ∈ s.requests

variable {o : Owner} {k : Nat}

theorem OwnerSound.hands_le_one {trace : List Event} {handed : List Nat} (h : OwnerSound trace handed k o) : o.hands ≤ 1 := by
  have hOne : ∀ id : String, (if id = "" then 0 else 1) ≤ 1 := by
    intro id
    split <;> omega
  rw [Owner.hands]
  cases hSubscriber : o.subscriber with
  | finished id =>
    -- a call that finished has published nothing, so the owner has no registration to hand over
    have hid : o.id = "" := by
      by_contra hid
      have hPublished := h.published.mpr hid
      rw [hSubscriber] at hPublished
      cases hPublished
    cases o.release <;> simp only [hid, if_true, Nat.zero_add] <;> exact hOne id
  | _ => cases o.release <;> first | exact hOne o.id | exact Nat.zero_le 1

variable {s : State}

theorem Sound.handed_le_one (hs : Sound s) (k : Nat) : s.handed.count k ≤ 1 := by
  cases hk : s.owners k with
  | none =>
    rw [List.count_eq_zero.mpr (hs.unowned k hk).2.2]
    exact Nat.zero_le _
  | some o =>
    rw [(hs.owned k o hk).handed]
    exact (hs.owned k o hk).hands_le_one

theorem Sound.started_le_one (hs : Sound s) (k : Nat) : s.started.count k ≤ 1 := by
  have hCounted := hs.counted k
  have hHanded := hs.handed_le_one k
  omega

theorem handed_of_not_held (h : OwnerSound s.trace s.handed k o) (hRegistered : o.Registered) (hHeld : ¬ Held s k o) :
    k ∈ s.handed := by
  refine List.count_pos_iff.mp ?_
  rw [h.handed]
  have hNot : ¬ _ := fun hLeft => hHeld (.inl hLeft)
  unfold Owner.Registered at hRegistered
  cases hSubscriber : o.subscriber with
  | calling | failed =>
    rw [hSubscriber] at hRegistered
    exact hRegistered.elim
  | answered id generation | rejected id | releasing id mine =>
    rw [hSubscriber] at hNot
    exact absurd trivial hNot
  | published =>
    rw [hSubscriber] at hNot
    obtain ⟨reason, hDone⟩ := not_forall_not.mp hNot
    rw [Owner.hands, hDone, hSubscriber]
    rw [if_neg (h.published.mp hSubscriber)]
    exact Nat.one_pos
  | finished id =>
    rw [hSubscriber] at hRegistered
    rw [Owner.hands, hSubscriber]
    dsimp only
    rw [if_neg hRegistered]
    exact Nat.succ_pos _

theorem Sound.cleaned (hs : Sound s) (hk : s.owners k = some o) (hRegistered : o.Registered) :
    Held s k o ∨ s.started.count k = 1 ∨ s.gone o.stream = true := by
  by_cases hHeld : Held s k o
  · exact .inl hHeld
  rcases hs.accounted k o hk (handed_of_not_held (hs.owned k o hk) hRegistered hHeld) with h | h | h | h
  · exact .inl (.inr (.inl h))
  · exact .inl (.inr (.inr h))
  · exact .inr (.inl (Nat.le_antisymm (hs.started_le_one k) (List.count_pos_iff.mpr h)))
  · exact .inr (.inr h)

theorem Sound.invalidated_le_one (hs : Sound s) (k : Nat) :
    s.trace.count (.invalidated k) ≤ 1 ∧ (.won k false ∈ s.trace → .invalidated k ∉ s.trace) := by
  cases hk : s.owners k with
  | none =>
    obtain ⟨hWon, hCalls, -⟩ := hs.unowned k hk
    rw [hCalls]
    exact ⟨Nat.zero_le _, fun h => absurd h (hWon false)⟩
  | some o =>
    have hOwned := hs.owned k o hk
    rw [hOwned.calls]
    refine ⟨?_, fun hWon => List.count_eq_zero.mp (hOwned.calls.trans ?_)⟩
    · unfold Release.calls
      split <;> omega
    · have hReason := (hOwned.won false).mp hWon
      cases hRelease : o.release with
      | active | won reason | removed reason id => rfl
      | notified reason id | done reason =>
        rw [hRelease] at hReason
        cases hReason
        rfl

/-- In every state that a hub reaches: an owner was told of its invalidation at most once, and never if a release
took it; a check that finds an owner active comes before the owner is taken, and every change is announced
after such a check of its own; every registration is held, or one cleanup of it was started, or its stream
is retired or terminal; and after a new status was reported no active owner and no connection is of an older
generation. -/
theorem hub_ownership {actions : List Action} {s : State} (h : Runs step (fun _ _ => True) start actions s) :
    (∀ k, s.trace.count (.invalidated k) ≤ 1 ∧ (.won k false ∈ s.trace → .invalidated k ∉ s.trace)) ∧
    (s.trace.Pairwise Before ∧ ∀ k, s.trace.count (.changed k) ≤ s.trace.count (.checked k)) ∧
    (∀ k, s.handed.count k ≤ 1 ∧ s.started.count k ≤ 1 ∧
      ∀ o, s.owners k = some o → o.Registered → Held s k o ∨ s.started.count k = 1 ∨ s.gone o.stream = true) ∧
    ∀ h g, .reported h g ∈ s.trace →
      (∀ k o, s.owners k = some o → o.stream = h → o.generation < g → o.release ≠ .active) ∧
      ∀ c ∈ s.replicaConnections, c.stream = h → g ≤ c.generation := by
  have hs : Sound s := h.invariant sound_start fun _ _ _ hs _ hStep => hs.next hStep
  refine ⟨hs.invalidated_le_one, ⟨hs.order, fun k => ?_⟩, fun k => ⟨hs.handed_le_one k, hs.started_le_one k, fun o hk => hs.cleaned hk⟩,
    fun h g hMem => ?_⟩
  · rw [← hs.called k]
    exact Nat.le_add_right _ _
  · obtain ⟨-, hCleared⟩ := hs.reported h g hMem
    exact ⟨fun k o hk hStream hOld hActive => List.not_mem_nil (hCleared.owners k o hk hStream hOld hActive), hCleared.connections⟩

def subscription : List Action :=
  [.setStream (some 0), .subscribe, .register, .answer 0 "a" 1, .publish 0, .decide true]

/-- The stream reconnects, and its owner is invalidated and cleaned up. -/
def reconnection : List Action :=
  subscription ++ [Action.connect, .register, .status 0 ⟨2, true, false⟩, .invalidate 0, .collect 0, .next 0, .remove 0, .notify 0, .finish 0,
    .resume 0, .next 0, .checkCleanup 0, .startCleanup 0 true]

theorem hub_ownership_reconnection : ∃ s : State,
    Runs step (fun _ _ => True) start reconnection s ∧ s.trace = [.won 0 true, .invalidated 0, .reported 0 2] ∧ s.started = [0] ∧
    ∀ c ∈ s.replicaConnections, c.stream = 0 → 2 ≤ c.generation := by
  obtain ⟨s, hRun, hTrace, hStarted⟩ : ∃ s, Runs step (fun _ _ => True) start reconnection s ∧
      s.trace = [.won 0 true, .invalidated 0, .reported 0 2] ∧ s.started = [0] := Runs.exists_of_foldlM (by decide +kernel)
  obtain ⟨-, -, -, hReported⟩ := hub_ownership hRun
  exact ⟨s, hRun, hTrace, hStarted, (hReported 0 2 (by rw [hTrace]; decide)).2⟩

/-- The owner is released between the check of a delivery and its callback. -/
def lateChange : List Action :=
  subscription ++ [Action.deliver 0 ["a"], .check 0, .release 0, .remove 0, .notify 0, .finish 0, .call 0]

def lateInvalidation : List Action :=
  subscription ++ [Action.status 0 ⟨2, false, false⟩, .invalidate 0, .collect 0, .next 0, .release 0, .remove 0, .notify 0]

def staleOwner : List Action :=
  subscription ++ [Action.release 0, .status 0 ⟨2, false, false⟩, .invalidate 0, .collect 0, .next 0, .next 0]

theorem hub_does_not_wait :
    (∃ s, Runs step (fun _ _ => True) start lateChange s ∧ s.trace = [.checked 0, .won 0 false, .released 0, .changed 0]) ∧
    (∃ s, Runs step (fun _ _ => True) start lateInvalidation s ∧ s.trace = [.won 0 true, .released 0, .invalidated 0]) ∧
    ∃ s, Runs step (fun _ _ => True) start staleOwner s ∧ .reported 0 2 ∈ s.trace ∧ 0 ∈ s.replicaOwners ∧
      (s.owners 0).map Owner.generation = some 1 := by
  refine ⟨?_, ?_, ?_⟩
  all_goals exact Runs.exists_of_foldlM (by decide +kernel)

end Syntrix.Realtime
