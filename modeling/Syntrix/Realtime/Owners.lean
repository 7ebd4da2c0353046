import Syntrix.Realtime.Hub
import Syntrix.Lib.Tables

/-! # Ownership of the registrations

An owner is taken once; the one that takes it removes it, calls back and hands its registration on. When a
new status has been reported, nothing of an older generation is listed again.
-/
namespace Syntrix.Realtime

open Lib List Option Function

def Release.reason : Release → Option Bool
  | .active => none
  | .won reason => some reason
  | .removed reason _ => some reason
  | .notified reason _ => some reason
  | .done reason => some reason

def Release.calls : Release → Nat
  | .notified true _ => 1
  | .done true => 1
  | _ => 0

/-- The ID that was read when the owner was removed. -/
def Release.id? : Release → Option String
  | .removed _ id => some id
  | .notified _ id => some id
  | _ => none

def Owner.hands (o : Owner) : Nat :=
  (match o.release with | .done _ => if o.id = "" then 0 else 1 | _ => 0) +
    match o.subscriber with | .finished id => if id = "" then 0 else 1 | _ => 0

structure OwnerSound (trace : List Event) (handed : List Nat) (k : Nat) (o : Owner) : Prop where
  published : o.subscriber = .published ↔ o.id ≠ ""
  read : ∀ id ∈ o.release.id?, id = o.id
  won : ∀ r, .won k r ∈ trace ↔ o.release.reason = some r
  calls : trace.count (.invalidated k) = o.release.calls
  handed : handed.count k = o.hands

/-- No registration of an older generation can be made under an ownership. -/
structure Floor (s : State) (h g : Nat) : Prop where
  status : ∃ owner, s.streams h = some owner ∧ g ≤ (s.statuses owner.stream).generation
  connecting : ∀ g', s.lock = some (.connecting h g') → g ≤ g'
  subscribing : ∀ g', s.lock = some (.subscribing h g') → g ≤ g'

/-- No connection of an older generation is listed, and no owner but some is active. -/
structure Cleared (s : State) (h g : Nat) (rest : List Nat) : Prop where
  connections : ∀ c ∈ s.replicaConnections, c.stream = h → g ≤ c.generation
  owners : ∀ k o, s.owners k = some o → o.stream = h → o.generation < g → o.release = .active → k ∈ rest

structure InvalidationSound (s : State) (i : Invalidation) (g : Nat) : Prop where
  floor : Floor s i.stream g
  keep : ∀ g' ∈ i.keepGeneration, g' = g
  cleared : ∀ rest ∈ i.owners, Cleared s i.stream g rest

def Before (a b : Event) : Prop := ∀ k r, a = .won k r → b ≠ .checked k

structure Sound (s : State) : Prop where
  streams : ∀ h owner, s.streams h = some owner → h < s.nextStream
  locked : ∀ h g, s.lock = some (.subscribing h g) → (s.streams h).isSome
  based : ∀ k o, s.owners k = some o → (s.streams o.stream).isSome
  numbered : ∀ k o, s.owners k = some o → k < s.nextOwner
  owned : ∀ k o, s.owners k = some o → OwnerSound s.trace s.handed k o
  unowned : ∀ k, s.owners k = none → (∀ r, .won k r ∉ s.trace) ∧ s.trace.count (.invalidated k) = 0 ∧ k ∉ s.handed
  listed : ∀ k o, s.owners k = some o → o.release = .active → k ∈ s.replicaOwners
  order : s.trace.Pairwise Before
  called : ∀ k, s.trace.count (.changed k) + s.calls.count k = s.trace.count (.checked k)
  counted : ∀ k, s.cleanups.count k + s.requests.count k + s.started.count k ≤ s.handed.count k
  accounted : ∀ k o, s.owners k = some o → k ∈ s.handed → k ∈ s.cleanups ∨ k ∈ s.requests ∨ k ∈ s.started ∨ s.gone o.stream = true
  reported : ∀ h g, .reported h g ∈ s.trace → Floor s h g ∧ Cleared s h g []
  invalidations : ∀ t i, s.invalidations t = some i → ∀ g ∈ i.report, InvalidationSound s i g

/-! ## Owners -/

section Owners

variable {s s' : State} {k : Nat} {o o' : Owner}

variable {g h : Nat}

theorem Floor.congr (hFloor : Floor s h g) (hStreams : s'.streams = s.streams) (hStatuses : s'.statuses = s.statuses)
    (hLock : s'.lock = s.lock ∨ s'.lock = none) : Floor s' h g := by
  obtain ⟨hStatus, hConnecting, hSubscribing⟩ := hFloor
  rw [← hStreams, ← hStatuses] at hStatus
  rcases hLock with hLock | hLock
  · rw [← hLock] at hConnecting hSubscribing
    exact ⟨hStatus, hConnecting, hSubscribing⟩
  · refine ⟨hStatus, ?_, ?_⟩ <;> rw [hLock] <;> exact nofun

theorem Cleared.congr {rest : List Nat} (hCleared : Cleared s h g rest)
    (hConnections : s'.replicaConnections ⊆ s.replicaConnections) (hOwners : s'.owners = s.owners) : Cleared s' h g rest :=
  ⟨fun c hc => hCleared.connections c (hConnections hc), by rw [hOwners]; exact hCleared.owners⟩

/-- A step after which nothing can be of an older generation than before. -/
structure Keeps (s s' : State) : Prop where
  floor : ∀ {h g : Nat}, Floor s h g → Floor s' h g
  cleared : ∀ {h g : Nat} {rest : List Nat}, Floor s h g → Cleared s h g rest → Cleared s' h g rest

theorem Keeps.of_eq (hStreams : s'.streams = s.streams) (hStatuses : s'.statuses = s.statuses) (hLock : s'.lock = s.lock ∨ s'.lock = none)
    (hConnections : s'.replicaConnections ⊆ s.replicaConnections) (hOwners : s'.owners = s.owners) : Keeps s s' :=
  ⟨fun hFloor => hFloor.congr hStreams hStatuses hLock, fun _ hCleared => hCleared.congr hConnections hOwners⟩

theorem Keeps.reported (h : Keeps s s') (hs : Sound s) (x g : Nat) (hMem : .reported x g ∈ s.trace) : Floor s' x g ∧ Cleared s' x g [] :=
  ⟨h.floor (hs.reported x g hMem).1, h.cleared (hs.reported x g hMem).1 (hs.reported x g hMem).2⟩

theorem Keeps.invalidation (h : Keeps s s') {i : Invalidation} (hi : InvalidationSound s i g) : InvalidationSound s' i g :=
  ⟨h.floor hi.floor, hi.keep, fun rest hr => h.cleared hi.floor (hi.cleared rest hr)⟩

/-- What one step may do with an owner: it is not made active again, and the step tells what it did to it. -/
structure Moves (s : State) (replicaOwners : Finset Nat) (k : Nat) (o o' : Owner) (events : List Event) (hands : List Nat) : Prop where
  stream : o'.stream = o.stream
  generation : o'.generation = o.generation
  taken : o'.release = .active → o.release = .active
  listed : o'.release = .active → k ∈ replicaOwners
  others : ∀ j ∈ s.replicaOwners, j ≠ k → j ∈ replicaOwners
  owned : OwnerSound (s.trace ++ events) (s.handed ++ hands) k o'
  events : ∀ e ∈ events, e = .released k ∨ e = .invalidated k ∨ ∃ r, e = .won k r
  hands : ∀ j ∈ hands, j = k

variable {events : List Event}

theorem count_other (hEvents : ∀ e ∈ events, e = .released k ∨ e = .invalidated k ∨ ∃ r, e = .won k r) {e : Event}
    (he : e ≠ .released k) (he' : e ≠ .invalidated k) (he'' : ∀ r, e ≠ .won k r) : e ∉ events := fun hMem => by
  rcases hEvents e hMem with h | h | ⟨r, h⟩
  · exact he h
  · exact he' h
  · exact he'' r h

variable {subscriber : Subscriber} {handed : List Nat} {trace : List Event}

theorem OwnerSound.resubscribe (h : OwnerSound trace handed k o) (hOld : o.subscriber ≠ .published)
    (hNew : subscriber ≠ .published) (hHands : ({ o with subscriber := subscriber } : Owner).hands = o.hands) :
    OwnerSound trace handed k { o with subscriber := subscriber } :=
  ⟨iff_of_false hNew fun hid => hOld (h.published.mpr hid), h.read, h.won, h.calls, h.handed.trans hHands.symm⟩

theorem OwnerSound.proceed {hands : List Nat} {release : Release} (h : OwnerSound trace handed k o)
    (hRead : ∀ id ∈ release.id?, id = o.id) (hReason : release.reason = o.release.reason) (hNew : ∀ r, Event.won k r ∉ events)
    (hCalls : release.calls = o.release.calls + events.count (.invalidated k))
    (hHands : ({ o with release := release } : Owner).hands = o.hands + hands.count k) :
    OwnerSound (trace ++ events) (handed ++ hands) k { o with release := release } := by
  refine ⟨h.published, hRead, fun r => ?_, ?_, ?_⟩
  · rw [mem_append, or_iff_left (hNew r)]
    exact (h.won r).trans (by rw [hReason])
  · rw [count_append, h.calls]
    exact hCalls.symm
  · rw [count_append, h.handed]
    exact hHands.symm

theorem hand_eq (s : State) (k : Nat) (id : String) : s.hand k id = { s with
    handed := s.handed ++ if id = "" then [] else [k]
    cleanups := s.cleanups ++ if id = "" then [] else [k] } := by
  unfold State.hand
  split
  · rw [append_nil, append_nil]
  · rfl

theorem count_hands (k : Nat) (id : String) : (if id = "" then ([] : List Nat) else [k]).count k = if id = "" then 0 else 1 := by
  split
  · rfl
  · exact count_singleton_self

variable {id : String}

theorem mem_hands {j : Nat} (h : j ∈ if id = "" then ([] : List Nat) else [k]) : j = k := by
  split at h
  · cases h
  · exact mem_singleton.mp h

variable (hs : Sound s) (hk : s.owners k = some o)

include hs hk

variable {lock : Option Lock} {subscriptions : String → Option Nat}

theorem Sound.moveOwner {hands cleanups : List Nat} {replicaOwners : Finset Nat} (hLock : lock = s.lock ∨ lock = none)
    (hTrace : trace = s.trace ++ events) (hHands : handed = s.handed ++ hands) (hCleanups : cleanups = s.cleanups ++ hands)
    (hMoves : Moves s replicaOwners k o o' events hands) :
    Sound { s with
      owners := update s.owners k (some o')
      trace := trace
      handed := handed
      cleanups := cleanups
      replicaOwners := replicaOwners
      replicaSubscriptions := subscriptions
      lock := lock } := by
  subst hTrace hHands hCleanups
  have hNot : ∀ {e : Event}, e ≠ .released k → e ≠ .invalidated k → (∀ r, e ≠ .won k r) → e ∉ events := count_other hMoves.events
  have hNotWon : ∀ {j : Nat} (r : Bool), j ≠ k → Event.won j r ∉ events := fun r hj =>
    hNot nofun nofun fun r' h => hj (Event.won.inj h).1
  have hNotInvalidated : ∀ {j : Nat}, j ≠ k → Event.invalidated j ∉ events := fun hj =>
    hNot nofun (fun h => hj (Event.invalidated.inj h)) nofun
  have hNotChecked : ∀ j, Event.checked j ∉ events := fun j => hNot nofun nofun nofun
  have hNotChanged : ∀ j, Event.changed j ∉ events := fun j => hNot nofun nofun nofun
  have hHanded : ∀ {j : Nat}, j ≠ k → j ∉ hands := fun hj hMem => hj (hMoves.hands _ hMem)
  have hKeeps : Keeps s { s with
      owners := update s.owners k (some o'), trace := s.trace ++ events, handed := s.handed ++ hands, cleanups := s.cleanups ++ hands
      replicaOwners := replicaOwners, replicaSubscriptions := subscriptions, lock := lock } :=
    ⟨fun hFloor => hFloor.congr rfl rfl hLock, fun _ hCleared => ⟨hCleared.connections, forall_update hCleared.owners (by
      rintro _ ⟨⟩ hStream hOld hActive
      exact hCleared.owners k o hk (hMoves.stream ▸ hStream) (hMoves.generation ▸ hOld) (hMoves.taken hActive))⟩⟩
  refine ⟨hs.streams, fun h g hLocked => ?_, forall_update hs.based ?_, forall_update hs.numbered fun _ _ => hs.numbered k o hk,
    fun j x hj => ?_, fun j hj => ?_, fun j x hj hActive => ?_, ?_, fun j => ?_, fun j => ?_,
    fun j x hj hMem => ?_, fun h g hMem => ?_, fun t i hi g hg => ?_⟩
  · rcases hLock with rfl | rfl
    · exact hs.locked h g hLocked
    · cases hLocked
  · rintro _ ⟨⟩
    rw [hMoves.stream]
    exact hs.based k o hk
  · rcases update_eq_some_iff.mp hj with ⟨rfl, ⟨⟩⟩ | ⟨hNe, hj⟩
    · exact hMoves.owned
    obtain ⟨hPublished, hRead, hWon, hCalls, hHands⟩ := hs.owned j x hj
    refine ⟨hPublished, hRead, fun r => ?_, ?_, ?_⟩
    · rw [mem_append, or_iff_left (hNotWon r hNe)]
      exact hWon r
    · rw [count_append, count_eq_zero.mpr (hNotInvalidated hNe), Nat.add_zero]
      exact hCalls
    · rw [count_append, count_eq_zero.mpr (hHanded hNe), Nat.add_zero]
      exact hHands
  · obtain ⟨hNe, hj⟩ := update_eq_none hj
    obtain ⟨hWon, hCalls, hHands⟩ := hs.unowned j hj
    refine ⟨fun r hMem => ?_, ?_, fun hMem => ?_⟩
    · rcases mem_append.mp hMem with hOld | hNew
      · exact hWon r hOld
      · exact hNotWon r hNe hNew
    · rw [count_append, hCalls, count_eq_zero.mpr (hNotInvalidated hNe)]
    · rcases mem_append.mp hMem with hOld | hNew
      · exact hHands hOld
      · exact hHanded hNe hNew
  · rcases update_eq_some_iff.mp hj with ⟨rfl, ⟨⟩⟩ | ⟨hNe, hj⟩
    · exact hMoves.listed hActive
    · exact hMoves.others j (hs.listed j x hj hActive) hNe
  · refine pairwise_append.mpr ⟨hs.order, ?_, ?_⟩
    · refine pairwise_of_forall_mem_list fun a _ b hb j r _ hChecked => ?_
      subst hChecked
      exact hNotChecked j hb
    · intro a _ b hb j r _ hChecked
      subst hChecked
      exact hNotChecked j hb
  · rw [count_append, count_append, count_eq_zero.mpr (hNotChanged j),
      count_eq_zero.mpr (hNotChecked j)]
    exact hs.called j
  · have hCounted := hs.counted j
    rw [count_append, count_append]
    dsimp only
    omega
  · rcases mem_append.mp hMem with hOld | hNew
    · have hAccounted : ∀ {x : Owner}, s.owners j = some x → j ∈ s.cleanups ++ hands ∨ j ∈ s.requests ∨ j ∈ s.started ∨ s.gone x.stream = true :=
        fun hj => (hs.accounted j _ hj hOld).imp_left (mem_append_left _)
      rcases update_eq_some_iff.mp hj with ⟨rfl, ⟨⟩⟩ | ⟨-, hj⟩
      · rw [hMoves.stream]
        exact hAccounted hk
      · exact hAccounted hj
    · exact .inl (mem_append_right _ hNew)
  · rcases mem_append.mp hMem with hOld | hNew
    · exact hKeeps.reported hs h g hOld
    · exact absurd hNew (hNot nofun nofun nofun)
  · exact hKeeps.invalidation (hs.invalidations t i hi g hg)

theorem Sound.setOwner (hLock : lock = s.lock ∨ lock = none) (hStream : o'.stream = o.stream)
    (hGeneration : o'.generation = o.generation) (hRelease : o'.release = o.release)
    (hOwned : OwnerSound s.trace s.handed k o') :
    Sound { s with owners := update s.owners k (some o'), replicaSubscriptions := subscriptions, lock := lock } := by
  have hMoves : Moves s s.replicaOwners k o o' [] [] :=
    ⟨hStream, hGeneration, fun h => hRelease ▸ h, fun h => hs.listed k o hk (hRelease ▸ h), fun j hj _ => hj,
      by rwa [append_nil, append_nil], nofun, nofun⟩
  exact hs.moveOwner hk hLock (append_nil _).symm (append_nil _).symm (append_nil _).symm hMoves

theorem Sound.answer {generation : Nat} (hStep : answerStep s k o id generation = some s') : Sound s' := by
  obtain ⟨hCalling, ⟨⟩⟩ := ite_none_right_eq_some.mp hStep
  refine hs.setOwner hk (.inl rfl) rfl rfl rfl ((hs.owned k o hk).resubscribe ?_ nofun ?_)
  · rw [hCalling]
    nofun
  · rw [Owner.hands, Owner.hands, hCalling]

theorem Sound.refuse (hStep : refuseStep s k o = some s') : Sound s' := by
  obtain ⟨hCalling, ⟨⟩⟩ := ite_none_right_eq_some.mp hStep
  refine hs.setOwner hk (.inl rfl) rfl rfl rfl ((hs.owned k o hk).resubscribe ?_ nofun ?_)
  · rw [hCalling]
    nofun
  · rw [Owner.hands, Owner.hands, hCalling]

omit hk in
theorem Sound.decide {live : Bool} (hStep : decideStep s live = some s') : Sound s' := by
  unfold decideStep at hStep
  split at hStep
  · rename_i k status hLock
    split at hStep
    · rename_i o hk
      split at hStep
      · rename_i id generation hAnswered
        have hOwned := hs.owned k o hk
        split at hStep
        · rename_i hValid
          obtain ⟨-, hActive, -, hid, -⟩ := hValid
          cases hStep
          refine hs.setOwner hk (.inr rfl) rfl rfl rfl ⟨iff_of_true rfl hid, ?_, hOwned.won, hOwned.calls, hOwned.handed.trans ?_⟩
          · rw [hActive]
            nofun
          · rw [Owner.hands, Owner.hands, hActive, hAnswered]
        · cases hStep
          refine hs.setOwner hk (.inr rfl) rfl rfl rfl (hOwned.resubscribe ?_ nofun ?_)
          · rw [hAnswered]
            nofun
          · rw [Owner.hands, Owner.hands, hAnswered]
      · cases hStep
    · cases hStep
  · cases hStep

theorem Sound.take {reason : Bool}
    (hSubscriber : subscriber = o.subscriber ∨ (o.subscriber ≠ .published ∧ subscriber ≠ .published ∧ ({ o with subscriber := subscriber } : Owner).hands = o.hands)) :
    Sound (s.take k { o with subscriber := subscriber } reason) := by
  have hOwned : OwnerSound s.trace s.handed k { o with subscriber := subscriber } := by
    rcases hSubscriber with rfl | ⟨hOld, hNew, hHands⟩
    · exact hs.owned k o hk
    · exact (hs.owned k o hk).resubscribe hOld hNew hHands
  unfold State.take
  split
  · rename_i hActive
    refine hs.moveOwner hk (.inl rfl) rfl (append_nil _).symm (append_nil _).symm
      ⟨rfl, rfl, nofun, nofun, fun j hj _ => hj, ?_, fun e he => .inr (.inr ⟨reason, mem_singleton.mp he⟩), nofun⟩
    · refine ⟨hOwned.published, nofun, fun r => ?_, ?_, ?_⟩
      · have hNot : Event.won k r ∉ s.trace := fun hMem => by
          have hReason := (hOwned.won r).mp hMem
          rw [show ({ o with subscriber := subscriber } : Owner).release = .active from hActive] at hReason
          cases hReason
        rw [mem_append, or_iff_right hNot, mem_singleton, Release.reason, some_inj]
        exact ⟨fun h => (Event.won.inj h).2.symm, fun h => by rw [h]⟩
      · have hCalls := hOwned.calls
        rw [show ({ o with subscriber := subscriber } : Owner).release = .active from hActive] at hCalls
        have hZero : [Event.won k reason].count (.invalidated k) = 0 := count_eq_zero.mpr fun h => by
          cases mem_singleton.mp h
        rw [count_append, hCalls, hZero]
        rfl
      · rw [append_nil, hOwned.handed, Owner.hands, Owner.hands]
        rw [hActive]
  · exact hs.setOwner hk (.inl rfl) rfl rfl rfl hOwned

theorem Sound.release (hStep : releaseStep s k o = some s') : Sound s' := by
  unfold releaseStep at hStep
  split at hStep
  · split at hStep
    · cases hStep
      exact hs.take hk (.inl rfl)
    cases hStep
    have hSame : update s.owners k (some o) = s.owners := by
      rw [← hk, update_eq_self]
    have hMoved : Sound { s with owners := update s.owners k (some o), trace := s.trace ++ [.released k] } := by
      refine hs.moveOwner hk (.inl rfl) rfl (append_nil _).symm (append_nil _).symm
        ⟨rfl, rfl, id, hs.listed k o hk, fun j hj _ => hj, ?_, fun e he => .inl (mem_singleton.mp he), nofun⟩
      obtain ⟨hPublished, hRead, hWon, hCalls, hHanded⟩ := hs.owned k o hk
      refine ⟨hPublished, hRead, fun r => ?_, ?_, ?_⟩
      · have hOther : Event.won k r ∉ [Event.released k] := fun h => nomatch mem_singleton.mp h
        rw [mem_append, or_iff_left hOther]
        exact hWon r
      · rw [count_append, hCalls]
        rfl
      · rw [append_nil]
        exact hHanded
    rw [hSame] at hMoved
    exact hMoved
  · rename_i hFailed
    cases hStep
    refine hs.take hk (.inr ⟨by rw [hFailed]; nofun, nofun, ?_⟩)
    rw [Owner.hands, Owner.hands, hFailed]
    rfl
  · rename_i id hRejected
    cases hStep
    refine hs.take hk (.inr ⟨by rw [hRejected]; nofun, nofun, ?_⟩)
    rw [Owner.hands, Owner.hands, hRejected]
  · cases hStep

theorem Sound.remove (hStep : removeStep s k o = some s') : Sound s' := by
  unfold removeStep at hStep
  split at hStep
  · rename_i reason hWon
    cases hStep
    refine hs.moveOwner hk (.inl rfl) (append_nil _).symm (append_nil _).symm (append_nil _).symm
      ⟨rfl, rfl, nofun, nofun, fun j hj hNe => Finset.mem_erase.mpr ⟨hNe, hj⟩, ?_, nofun, nofun⟩
    refine (hs.owned k o hk).proceed ?_ ?_ nofun ?_ ?_
    · rintro _ ⟨⟩
      rfl
    · rw [hWon]
      rfl
    · rw [hWon]
      rfl
    · rw [Owner.hands, Owner.hands, hWon]
      rfl
  · cases hStep

theorem Sound.notify (hStep : notifyStep s k o = some s') : Sound s' := by
  unfold notifyStep at hStep
  split at hStep
  · rename_i reason id hRemoved
    have hOwned := hs.owned k o hk
    have hRead : ∀ id' ∈ (Release.notified reason id).id?, id' = o.id := by
      rintro _ ⟨⟩
      exact hOwned.read id (by rw [hRemoved]; rfl)
    cases hStep
    cases reason with
    | true =>
      refine hs.moveOwner hk (.inl rfl) rfl (append_nil _).symm (append_nil _).symm
        ⟨rfl, rfl, nofun, nofun, fun j hj _ => hj, ?_, fun e he => .inr (.inl (mem_singleton.mp he)), nofun⟩
      refine hOwned.proceed hRead (by rw [hRemoved]; rfl) (fun r h => nomatch mem_singleton.mp h) ?_ ?_
      · rw [hRemoved, count_singleton_self]
        rfl
      · rw [Owner.hands, Owner.hands, hRemoved]
        rfl
    | false =>
      refine hs.moveOwner hk (.inl rfl) (append_nil _).symm (append_nil _).symm (append_nil _).symm
        ⟨rfl, rfl, nofun, nofun, fun j hj _ => hj, ?_, nofun, nofun⟩
      refine hOwned.proceed hRead (by rw [hRemoved]; rfl) nofun (by rw [hRemoved]; rfl) ?_
      rw [Owner.hands, Owner.hands, hRemoved]
      rfl
  · cases hStep

theorem Sound.finish (hStep : finishStep s k o = some s') : Sound s' := by
  unfold finishStep at hStep
  split at hStep
  · rename_i reason id hNotified
    have hOwned := hs.owned k o hk
    have hid : id = o.id := hOwned.read id (by rw [hNotified]; rfl)
    cases hStep
    rw [hand_eq]
    have hHands : ({ o with release := .done reason } : Owner).hands = o.hands + (if id = "" then ([] : List Nat) else [k]).count k := by
      rw [count_hands, hid, Owner.hands, Owner.hands, hNotified]
      dsimp only
      omega
    have hReason : (Release.done reason).reason = o.release.reason := by
      rw [hNotified]
      rfl
    cases reason with
    | true =>
      refine hs.moveOwner hk (.inl rfl) (append_nil _).symm rfl rfl
        ⟨rfl, rfl, nofun, nofun, fun j hj _ => hj, ?_, nofun, fun j hj => mem_hands hj⟩
      exact hOwned.proceed nofun hReason nofun (by rw [hNotified]; rfl) hHands
    | false =>
      refine hs.moveOwner hk (.inl rfl) rfl rfl rfl
        ⟨rfl, rfl, nofun, nofun, fun j hj _ => hj, ?_, fun e he => .inl (mem_singleton.mp he), fun j hj => mem_hands hj⟩
      exact hOwned.proceed nofun hReason (fun r h => nomatch mem_singleton.mp h) (by rw [hNotified]; rfl) hHands
  · cases hStep

theorem Sound.reject (hStep : rejectStep s k o = some s') : Sound s' := by
  unfold rejectStep at hStep
  split at hStep
  · rename_i id mine hReleasing
    obtain ⟨-, ⟨⟩⟩ := ite_none_right_eq_some.mp hStep
    rw [hand_eq]
    have hOwned := hs.owned k o hk
    have hOld : o.subscriber ≠ .published := by
      rw [hReleasing]
      nofun
    refine hs.moveOwner hk (.inl rfl) (append_nil _).symm rfl rfl
      ⟨rfl, rfl, fun h => h, hs.listed k o hk, fun j hj _ => hj, ?_, nofun, fun j hj => mem_hands hj⟩
    refine ⟨iff_of_false nofun fun hid => hOld (hOwned.published.mpr hid), hOwned.read, ?_, ?_, ?_⟩
    · rw [append_nil]
      exact hOwned.won
    · rw [append_nil]
      exact hOwned.calls
    · rw [count_append, hOwned.handed, count_hands, Owner.hands, Owner.hands, hReleasing]
      dsimp only
      omega
  · cases hStep

end Owners

end Syntrix.Realtime
