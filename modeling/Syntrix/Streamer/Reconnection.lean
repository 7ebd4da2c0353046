import Syntrix.Streamer.Registry

/-! # Reconnection

The registry over whole runs of a remote stream. After the stream was closed `Unsubscribe` is refused and
leaves the registration where it was; in all other cases an ID that was passed to it is gone for good.
-/
namespace Syntrix.Streamer

open Lib

variable {s s' : State} {c : Nat} {call : Call}

theorem enter_room (hc : s.calls c = some call) (hNew : call.entry.restoring = false) (hStep : step s (.enter c) = some s') :
    (s'.active = s.active ∧ s'.pending = s.pending) ∨ s'.active.card + s'.pending.card ≤ activeRegistrationLimit := by
  rw [step, hc, Option.bind_some, enterStep] at hStep
  split at hStep
  · cases hStep
  split at hStep
  · cases hStep
    exact .inl ⟨rfl, rfl⟩
  split at hStep
  · cases hStep
    exact .inl ⟨rfl, rfl⟩
  rename_i hRoom
  split at hStep
  · cases hStep
    exact .inl ⟨rfl, rfl⟩
  cases hStep
  rw [not_or, Nat.not_le, not_and, Nat.not_le] at hRoom
  have hFull := hRoom.2 hNew
  have hWithout := Finset.card_le_card (without_subset s.pending call.entry.id)
  have hInsert := Finset.card_insert_le call.entry (without s.pending call.entry.id)
  dsimp only [State.setCall]
  omega

theorem complete_room (hStep : step s (.complete c) = some s') :
    s'.active.card + s'.pending.card ≤ s.active.card + s.pending.card := by
  obtain ⟨call, hc, hStep⟩ := Option.bind_eq_some_iff.mp hStep
  obtain ⟨-, hStep⟩ := Option.ite_none_left_eq_some.mp hStep
  split at hStep
  · cases hStep
  split at hStep
  · cases hStep
    exact le_refl _
  split at hStep
  · rename_i hCurrent
    have hLess : (without s.pending call.entry.id).card < s.pending.card :=
      Finset.card_lt_card (Finset.filter_ssubset.mpr ⟨call.entry, hCurrent.2.2.2.2, fun h => h rfl⟩)
    split at hStep
    · cases hStep
      have hInsert := Finset.card_insert_le call.entry.id s.active
      dsimp only [State.setCall]
      omega
    · cases hStep
      exact Nat.add_le_add_left hLess.le _
  · cases hStep
    exact le_refl _

/-- In every state that a stream reaches: while it is connected, every active ID was acknowledged on the
transport of its generation; an ID for which `Unsubscribe` was not refused is not active; what a call of
`Recv` returned did not come from a transport older than the generation reported when it began; the reported
generations and those of the transports increase; the registrations stay within their limits; and whatever
is pending belongs to the attempt that has not ended. -/
theorem reconnection_keeps_registry {actions : List Action} (h : Runs step (fun _ _ => True) start actions s) :
    (s.state = .connected → ∃ a, s.attempt = some a ∧ s.generations[a]? = some s.generation ∧ ∀ id ∈ s.active, (a, id) ∈ s.acknowledged) ∧
    (∀ id ∈ s.unsubscribed, id ∉ s.active) ∧
    (∀ x ∈ s.returned, s.generations[x.2.attempt]? = some x.2.generation ∧ ¬ x.2.generation < x.1) ∧
    (s.reported.Pairwise (· < ·) ∧ s.generations.Pairwise (· < ·)) ∧
    (s.pending.card ≤ registrationLimit ∧
      s.active.card + (s.pending.filter fun e => e.restoring = false).card ≤ activeRegistrationLimit ∧
      (∀ c call s', s.calls c = some call → call.entry.restoring = false → step s (.enter c) = some s' →
        (s'.active = s.active ∧ s'.pending = s.pending) ∨ s'.active.card + s'.pending.card ≤ activeRegistrationLimit) ∧
      ∀ c s', step s (.complete c) = some s' → s'.active.card + s'.pending.card ≤ s.active.card + s.pending.card) ∧
    ∀ e ∈ s.pending, s.main.attempt = some e.attempt := by
  have hs : Sound s := h.invariant sound_start fun _ _ _ hs _ hStep => hs.next hStep
  refine ⟨fun hState => ?_, hs.unsubscribed, fun x hx => ⟨(hs.returned x hx).2, Nat.not_lt.mpr (hs.returned x hx).1⟩,
    ⟨hs.reports.1, hs.increasing⟩, ⟨hs.limit, hs.activeLimit, fun c call s' hc hNew hStep => enter_room hc hNew hStep, fun c s' => complete_room⟩,
    hs.served⟩
  obtain ⟨a, ha, hAll⟩ := hs.connected hState
  exact ⟨a, ha, (hs.current a ha).2, hAll⟩

def registration (c a : Nat) (id : String) : List Action :=
  [.enter c, .enqueue c, .write a .sent, .respond a id true, .proceed c, .complete c]

def failover : List Action :=
  [.startRecv 0, .deliver 0, .retire 0, .cancel 0, .leave, .cleanup, .dial, .install, .open ["a"], .restore]

def connection : List Action :=
  [.restored, .restore, .connect, .startRecv 1, .take 1, .check 1, .deliver 1, .take 1, .check 1]

def reconnection : List Action :=
  Action.subscribe "a" :: registration 0 0 "a" ++ failover ++ registration 1 1 "a" ++ connection

theorem reconnection_keeps_registry_restored : ∃ s : State,
    Runs step (fun _ _ => True) start reconnection s ∧ s.state = .connected ∧ s.generation = 2 ∧ s.active = {"a"} ∧
    s.returned = [(2, ⟨1, 2⟩)] ∧ (1, "a") ∈ s.acknowledged := by
  obtain ⟨s, hRun, hState, hGeneration, hActive, hReturned, hAttempt⟩ : ∃ s, Runs step (fun _ _ => True) start reconnection s ∧
      s.state = .connected ∧ s.generation = 2 ∧ s.active = {"a"} ∧ s.returned = [(2, ⟨1, 2⟩)] ∧ s.attempt = some 1 :=
    Runs.exists_of_foldlM (by decide +kernel)
  obtain ⟨a, ha, -, hAll⟩ := (reconnection_keeps_registry hRun).1 hState
  cases hAttempt.symm.trans ha
  exact ⟨s, hRun, hState, hGeneration, hActive, hReturned, hAll "a" (by rw [hActive]; exact Finset.mem_singleton_self _)⟩

def unsubscribeAfterClose : List Action :=
  Action.subscribe "a" :: registration 0 0 "a" ++ [Action.shutdown, Action.unsubscribe "a"]

theorem unsubscribe_refused_stays_active : ∃ s : State,
    Runs step (fun _ _ => True) start unsubscribeAfterClose s ∧ "a" ∈ s.passed ∧ "a" ∈ s.active :=
  Runs.exists_of_foldlM (by decide +kernel)

end Syntrix.Streamer
