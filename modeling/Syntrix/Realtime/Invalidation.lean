import Syntrix.Realtime.Owners
import Syntrix.Lib.Lists

/-! # Invalidation and cleanup

What the other steps do: the statuses of the streams move, invalidations read their owners and release them
one by one, deliveries check the owners they have read, and cleanups are started or give their stream up.
-/
namespace Syntrix.Realtime

open Lib List Option Function

/-! ## Streams and invalidations -/

section Streams

variable {s s' : State}

variable (hs : Sound s)

include hs

theorem Sound.transfer (hOwners : s'.owners = s.owners) (hNext : s'.nextOwner = s.nextOwner) (hTrace : s'.trace = s.trace)
    (hHanded : s'.handed = s.handed) (hListed : s'.replicaOwners = s.replicaOwners) (hCalls : s'.calls = s.calls)
    (hCleanups : s'.cleanups = s.cleanups ∧ s'.requests = s.requests ∧ s'.started = s.started)
    (hStreams : ∀ h owner, s'.streams h = some owner → h < s'.nextStream)
    (hLocked : ∀ h g, s'.lock = some (.subscribing h g) → (s'.streams h).isSome)
    (hKept : ∀ h, (s.streams h).isSome → (s'.streams h).isSome) (hGone : ∀ h, s.gone h = true → s'.gone h = true)
    (hKeeps : Keeps s s')
    (hInvalidations : ∀ t i, s'.invalidations t = some i → ∀ g ∈ i.report,
      (∃ t', s.invalidations t' = some i) ∨ InvalidationSound s' i g) : Sound s' := by
  refine ⟨hStreams, hLocked, ?_, ?_, ?_, ?_, ?_, ?_, ?_, ?_, ?_, fun h g hMem => ?_, fun t i hi g hg => ?_⟩
  · rw [hOwners]
    exact fun k o hk => hKept _ (hs.based k o hk)
  · rw [hOwners, hNext]
    exact hs.numbered
  · rw [hOwners, hTrace, hHanded]
    exact hs.owned
  · rw [hOwners, hTrace, hHanded]
    exact hs.unowned
  · rw [hOwners, hListed]
    exact hs.listed
  · rw [hTrace]
    exact hs.order
  · rw [hTrace, hCalls]
    exact hs.called
  · rw [hCleanups.1, hCleanups.2.1, hCleanups.2.2, hHanded]
    exact hs.counted
  · rw [hOwners, hCleanups.1, hCleanups.2.1, hCleanups.2.2, hHanded]
    exact fun k o hk hMem => (hs.accounted k o hk hMem).imp_right (Or.imp_right (Or.imp_right (hGone _)))
  · rw [hTrace] at hMem
    exact hKeeps.reported hs h g hMem
  · rcases hInvalidations t i hi g hg with ⟨t', hOld⟩ | hNew
    · exact hKeeps.invalidation (hs.invalidations t' i hOld g hg)
    · exact hNew

variable {captured : List Nat}

theorem Sound.keepStreams {connections : Finset Connection} {invalidations : Nat → Option Invalidation} {next : Nat}
    {owner : Option Nat} (hConnections : connections ⊆ s.replicaConnections)
    (hInvalidations : ∀ t i, invalidations t = some i → ∀ g ∈ i.report, (∃ t', s.invalidations t' = some i) ∨ InvalidationSound { s with streamOwner := owner, replicaConnections := connections, captured := captured, invalidations := invalidations, nextInvalidation := next } i g) :
    Sound { s with
      streamOwner := owner, replicaConnections := connections, captured := captured, invalidations := invalidations,
      nextInvalidation := next } :=
  hs.transfer rfl rfl rfl rfl rfl rfl ⟨rfl, rfl, rfl⟩ hs.streams hs.locked (fun _ h => h) (fun _ hGone => hGone)
    (.of_eq rfl rfl (.inl rfl) hConnections rfl) hInvalidations

variable {h : Nat}

omit hs in
theorem gone_iff : s.gone h = true ↔
    ∃ owner, s.streams h = some owner ∧ (owner.retired = true ∨ (s.statuses owner.stream).terminal = true) := by
  simp only [State.gone, Option.any_eq_true, Bool.or_eq_true]

variable {stream : Nat}

theorem Sound.status {next : StreamStatus} (hStep : statusStep s stream next = some s') : Sound s' := by
  obtain ⟨hNext, ⟨⟩⟩ := ite_none_right_eq_some.mp hStep
  have hLater : ∀ x, (s.statuses x).generation ≤ (update s.statuses stream next x).generation ∧
      ((s.statuses x).terminal = true → (update s.statuses stream next x).terminal = true) := by
    intro x
    by_cases hSame : x = stream
    · subst hSame
      rw [update_self]
      exact hNext
    · rw [update_of_ne hSame]
      exact ⟨le_refl _, id⟩
  refine hs.transfer rfl rfl rfl rfl rfl rfl ⟨rfl, rfl, rfl⟩ hs.streams hs.locked (fun _ h => h) (fun h hGone => ?_)
    ⟨fun hFloor => ?_, fun _ hCleared => hCleared.congr (Finset.Subset.refl _) rfl⟩ fun t i hi g _ => .inl ⟨t, hi⟩
  · obtain ⟨owner, hOwner, hEnd⟩ := gone_iff.mp hGone
    exact gone_iff.mpr ⟨owner, hOwner, hEnd.imp_right (hLater _).2⟩
  · obtain ⟨⟨owner, hOwner, hReached⟩, hConnecting, hSubscribing⟩ := hFloor
    exact ⟨⟨owner, hOwner, hReached.trans (hLater _).1⟩, hConnecting, hSubscribing⟩

variable {i : Invalidation}

theorem Sound.setInvalidation {t next : Nat} (hNew : ∀ g ∈ i.report, InvalidationSound s i g) :
    Sound { s with invalidations := update s.invalidations t (some i), nextInvalidation := next } := by
  refine hs.keepStreams (Finset.Subset.refl _) fun t' i' hi' g hg => ?_
  rcases update_eq_some_iff.mp hi' with ⟨rfl, ⟨⟩⟩ | ⟨-, hi'⟩
  · refine .inr (Keeps.invalidation ?_ (hNew g hg))
    exact .of_eq rfl rfl (.inl rfl) (Finset.Subset.refl _) rfl
  · exact .inl ⟨t', hi'⟩

theorem Sound.startInvalidation (hNew : ∀ g ∈ i.report, InvalidationSound s i g) : Sound (s.startInvalidation i) :=
  hs.setInvalidation hNew

theorem Sound.setStreamOwner {owner owner' : HubStreamOwner} (hOwner : s.streams h = some owner)
    (hStream : owner'.stream = owner.stream) (hRetired : owner.retired = true → owner'.retired = true) :
    Sound { s with streams := update s.streams h (some owner') } := by
  have hCase : ∀ {h' : Nat} {x : HubStreamOwner}, s.streams h' = some x →
      ∃ x', update s.streams h (some owner') h' = some x' ∧ x'.stream = x.stream ∧ (x.retired = true → x'.retired = true) := by
    intro h' x hx
    by_cases hSame : h' = h
    · subst hSame
      cases hOwner.symm.trans hx
      exact ⟨owner', update_self _ _ _, hStream, hRetired⟩
    · exact ⟨x, (update_of_ne hSame _ _).trans hx, rfl, id⟩
  have hKept : ∀ h', (s.streams h').isSome → (update s.streams h (some owner') h').isSome := fun h' hSome => by
    obtain ⟨x, hx⟩ := isSome_iff_exists.mp hSome
    obtain ⟨x', hx', -⟩ := hCase hx
    exact isSome_iff_exists.mpr ⟨x', hx'⟩
  refine hs.transfer rfl rfl rfl rfl rfl rfl ⟨rfl, rfl, rfl⟩ (forall_update hs.streams fun _ _ => hs.streams h owner hOwner)
    (fun h' g hLocked => hKept h' (hs.locked h' g hLocked)) hKept (fun h' hGone => ?_)
    ⟨fun hFloor => ?_, fun _ hCleared => hCleared.congr (Finset.Subset.refl _) rfl⟩ fun t i hi g _ => .inl ⟨t, hi⟩
  · obtain ⟨x, hx, hEnd⟩ := gone_iff.mp hGone
    obtain ⟨x', hx', hSame, hKept⟩ := hCase hx
    exact gone_iff.mpr ⟨x', hx', hEnd.imp hKept fun hTerminal => by rw [hSame]; exact hTerminal⟩
  · obtain ⟨⟨x, hx, hReached⟩, hConnecting, hSubscribing⟩ := hFloor
    obtain ⟨x', hx', hSame, -⟩ := hCase hx
    exact ⟨⟨x', hx', by rw [hSame]; exact hReached⟩, hConnecting, hSubscribing⟩

theorem Sound.retire (h : Nat) : Sound (s.retire h) := by
  unfold State.retire
  split
  · exact hs
  rename_i owner hOwner
  split
  · exact hs
  have hRetired : Sound { s with streams := update s.streams h (some { owner with retired := true }) } :=
    hs.setStreamOwner hOwner rfl fun _ => rfl
  exact hRetired.startInvalidation nofun

theorem Sound.own (stream : Option Nat) : Sound (s.own stream) := by
  cases stream with
  | none =>
    exact hs.keepStreams (Finset.Subset.refl _) fun t i hi g _ => .inl ⟨t, hi⟩
  | some stream =>
    have hKept : ∀ {h : Nat} {owner : HubStreamOwner}, s.streams h = some owner → (s.own (some stream)).streams h = some owner :=
      fun hOwner => (update_of_ne (hs.streams _ _ hOwner).ne _ _).trans hOwner
    have hSome : ∀ h, (s.streams h).isSome → ((s.own (some stream)).streams h).isSome := fun h hSome => by
      obtain ⟨owner, hOwner⟩ := isSome_iff_exists.mp hSome
      exact isSome_iff_exists.mpr ⟨owner, hKept hOwner⟩
    refine hs.transfer rfl rfl rfl rfl rfl rfl ⟨rfl, rfl, rfl⟩
      (forall_update (fun h owner hOwner => (hs.streams h owner hOwner).trans (Nat.lt_succ_self _)) fun _ _ => Nat.lt_succ_self _)
      (fun h g hLocked => hSome h (hs.locked h g hLocked)) hSome (fun h hGone => ?_)
      ⟨fun hFloor => ?_, fun _ hCleared => hCleared.congr (Finset.Subset.refl _) rfl⟩ fun t i hi g _ => .inl ⟨t, hi⟩
    · obtain ⟨owner, hOwner, hEnd⟩ := gone_iff.mp hGone
      exact gone_iff.mpr ⟨owner, hKept hOwner, hEnd⟩
    · obtain ⟨⟨owner, hOwner, hReached⟩, hConnecting, hSubscribing⟩ := hFloor
      exact ⟨⟨owner, hKept hOwner, hReached⟩, hConnecting, hSubscribing⟩

theorem Sound.setStream {stream : Option Nat} (hStep : setStreamStep s stream = some s') : Sound s' := by
  obtain ⟨-, hStep⟩ := ite_none_left_eq_some.mp hStep
  split at hStep
  · cases hStep
    exact hs
  split at hStep
  · cases hStep
    exact hs.own stream
  · cases hStep
    exact (hs.own stream).startInvalidation (by rintro _ ⟨⟩)

theorem Sound.setLock {lock : Lock}
    (hRead : ∀ h g, lock = .connecting h g ∨ lock = .subscribing h g → ∃ owner, s.streams h = some owner ∧ g = (s.statuses owner.stream).generation) :
    Sound { s with lock := some lock } := by
  have hLocked : ∀ h g, some lock = some (.subscribing h g) → (s.streams h).isSome := fun h g hLock => by
    obtain ⟨owner, hOwner, -⟩ := hRead h g (.inr (some.inj hLock))
    exact isSome_iff_exists.mpr ⟨owner, hOwner⟩
  refine hs.transfer rfl rfl rfl rfl rfl rfl ⟨rfl, rfl, rfl⟩ hs.streams hLocked (fun _ h => h) (fun _ hGone => hGone)
    ⟨fun {h g} hFloor => ?_, fun _ hCleared => hCleared.congr (Finset.Subset.refl _) rfl⟩ fun t i hi g _ => .inl ⟨t, hi⟩
  have hReached : ∀ g', lock = .connecting h g' ∨ lock = .subscribing h g' → g ≤ g' := by
    intro g' hLock
    obtain ⟨owner, hOwner, rfl⟩ := hRead h g' hLock
    obtain ⟨owner', hOwner', hLe⟩ := hFloor.status
    cases hOwner.symm.trans hOwner'
    exact hLe
  exact ⟨hFloor.status, fun g' hLock => hReached g' (.inl (some.inj hLock)), fun g' hLock => hReached g' (.inr (some.inj hLock))⟩

omit hs in
theorem ready_spec {r : Nat × Nat} (h : s.ready = some r) :
    ∃ owner, s.streams r.1 = some owner ∧ r.2 = (s.statuses owner.stream).generation := by
  obtain ⟨h', -, hReady⟩ := bind_eq_some_iff.mp h
  obtain ⟨owner, hOwner, -, ⟨⟩⟩ := bind_guard hReady
  exact ⟨owner, hOwner, rfl⟩

theorem Sound.connect (hStep : connectStep s = some s') : Sound s' := by
  obtain ⟨-, hStep⟩ := ite_none_right_eq_some.mp hStep
  obtain ⟨r, hReady, rfl⟩ := map_eq_some_iff.mp hStep
  refine hs.setLock ?_
  rintro h g (⟨⟨⟩⟩ | ⟨⟨⟩⟩)
  exact ready_spec hReady

theorem Sound.subscribe (hStep : subscribeStep s = some s') : Sound s' := by
  obtain ⟨-, hStep⟩ := ite_none_right_eq_some.mp hStep
  obtain ⟨r, hReady, rfl⟩ := map_eq_some_iff.mp hStep
  refine hs.setLock ?_
  rintro h g (⟨⟨⟩⟩ | ⟨⟨⟩⟩)
  exact ready_spec hReady

variable {k : Nat} {o : Owner}

theorem Sound.publish (hStep : publishStep s k o = some s') : Sound s' := by
  unfold publishStep at hStep
  split at hStep
  · cases hStep
    refine hs.setLock ?_
    rintro h g (⟨⟨⟩⟩ | ⟨⟨⟩⟩)
  · cases hStep

theorem Sound.register (hStep : registerStep s = some s') : Sound s' := by
  unfold registerStep at hStep
  split at hStep
  · rename_i h g hLock
    cases hStep
    have hKeeps : Keeps s { s with
        lock := none
        replicaConnections := insert ⟨s.nextConnection, h, g⟩ s.replicaConnections
        nextConnection := s.nextConnection + 1 } := by
      refine ⟨fun hFloor => hFloor.congr rfl rfl (.inr rfl), fun hFloor hCleared => ⟨fun c hc hStream => ?_, hCleared.owners⟩⟩
      rcases Finset.mem_insert.mp hc with rfl | hOld
      · cases hStream
        exact hFloor.connecting g hLock
      · exact hCleared.connections c hOld hStream
    exact { hs with
      locked := nofun
      reported := hKeeps.reported hs
      invalidations := fun t i hi g' hg' => hKeeps.invalidation (hs.invalidations t i hi g' hg') }
  · rename_i h g hLock
    cases hStep
    have hNone : s.owners s.nextOwner = none := by
      by_contra hSome
      obtain ⟨o, ho⟩ := ne_none_iff_exists'.mp hSome
      exact lt_irrefl _ (hs.numbered _ o ho)
    obtain ⟨hWon, hCalls, hHanded⟩ := hs.unowned s.nextOwner hNone
    have hKeeps : Keeps s { s with
        lock := none
        owners := update s.owners s.nextOwner (some { stream := h, generation := g })
        nextOwner := s.nextOwner + 1
        replicaOwners := insert s.nextOwner s.replicaOwners } := by
      refine ⟨fun hFloor => hFloor.congr rfl rfl (.inr rfl), fun hFloor hCleared => ⟨hCleared.connections, forall_update hCleared.owners ?_⟩⟩
      rintro _ ⟨⟩ ⟨⟩ hOld
      exact absurd hOld (Nat.not_lt.mpr (hFloor.subscribing g hLock))
    exact { hs with
      locked := nofun
      based := forall_update hs.based (by
        rintro _ ⟨⟩
        exact hs.locked h g hLock)
      numbered := forall_update (fun k o hk => (hs.numbered k o hk).trans (Nat.lt_succ_self _)) fun _ _ => Nat.lt_succ_self _
      owned := forall_update hs.owned (by
        rintro _ ⟨⟩
        exact ⟨iff_of_false nofun fun h => h rfl, nofun, fun r => iff_of_false (hWon r) nofun, hCalls, count_eq_zero.mpr hHanded⟩)
      unowned := fun k hk => hs.unowned k (update_eq_none hk).2
      listed := forall_update (fun k o hk hActive => Finset.mem_insert_of_mem (hs.listed k o hk hActive)) fun _ _ _ =>
        Finset.mem_insert_self _ _
      accounted := forall_update hs.accounted fun _ _ hMem => absurd hMem hHanded
      reported := hKeeps.reported hs
      invalidations := fun t i hi g' hg' => hKeeps.invalidation (hs.invalidations t i hi g' hg') }
  · cases hStep

theorem Sound.invalidate (hStep : invalidateStep s stream = some s') : Sound s' := by
  obtain ⟨hLock, hStep⟩ := ite_none_left_eq_some.mp hStep
  rw [not_not] at hLock
  split at hStep
  · cases hStep
    exact hs
  rename_i h _
  split at hStep
  · cases hStep
  rename_i owner hOwner
  dsimp only at hStep
  split at hStep
  · cases hStep
    exact hs
  rename_i hStream
  rw [not_not] at hStream
  have hSet : Sound { s with streams := update s.streams h (some { owner with generation := (s.statuses stream).generation }) } :=
    hs.setStreamOwner hOwner rfl id
  split at hStep
  · cases hStep
    refine hSet.startInvalidation ?_
    rintro _ ⟨⟩
    refine ⟨⟨⟨_, update_self _ _ _, ?_⟩, ?_, ?_⟩, ?_, by rintro _ ⟨⟩⟩
    · rw [hStream]
    · rw [hLock]
      rintro _ ⟨⟩
    · rw [hLock]
      rintro _ ⟨⟩
    · intro g' hg'
      split at hg'
      · exact (some.inj hg').symm
      · cases hg'
  · cases hStep
    exact hSet

omit hs in
theorem takes_of_lt {g generation : Nat} (hKeep : ∀ g' ∈ i.keepGeneration, g' = g) (hOld : generation < g) :
    i.takes i.stream generation = true := by
  rw [Invalidation.takes, decide_eq_true rfl, Bool.true_and, Option.all_eq_true]
  intro g' hg'
  rw [hKeep g' hg']
  exact decide_eq_true hOld.ne

variable {t : Nat}

theorem Sound.collect (hi : s.invalidations t = some i) (hStep : collectStep s t i = some s') : Sound s' := by
  unfold collectStep at hStep
  split at hStep
  · cases hStep
    refine hs.keepStreams (Finset.filter_subset _ _) fun t' i' hi' g hg => ?_
    rcases update_eq_some_iff.mp hi' with ⟨rfl, ⟨⟩⟩ | ⟨-, hi'⟩
    · obtain ⟨hFloor, hKeep, -⟩ := hs.invalidations t' i hi g hg
      refine .inr ⟨hFloor.congr rfl rfl (.inl rfl), hKeep, ?_⟩
      rintro _ ⟨⟩
      refine ⟨fun c hc hStream => ?_, fun k o hk hStream hOld hActive => ?_⟩
      · obtain ⟨-, hKept⟩ := Finset.mem_filter.mp hc
        by_contra hOld
        have hTakes := takes_of_lt hKeep (Nat.lt_of_not_le hOld)
        rw [← hStream] at hTakes
        exact absurd (hTakes.symm.trans hKept) nofun
      · have hTakes := takes_of_lt hKeep hOld
        rw [← hStream] at hTakes
        rw [mem_filter, mem_range, Bool.and_eq_true, decide_eq_true_eq, show s.owners k = some o from hk]
        exact ⟨hs.numbered k o hk, hs.listed k o hk hActive, hTakes⟩
    · exact .inl ⟨t', hi'⟩
  · cases hStep

theorem Sound.record {e : Event} {calls : List Nat} (hWon : ∀ k r, e ≠ .won k r) (hInvalidated : ∀ k, e ≠ .invalidated k)
    (hOrder : ∀ a ∈ s.trace, Before a e)
    (hCalled : ∀ k, [e].count (.changed k) + calls.count k = s.calls.count k + [e].count (.checked k))
    (hReported : ∀ h g, e = .reported h g → Floor s h g ∧ Cleared s h g []) :
    Sound { s with trace := s.trace ++ [e], calls := calls, captured := captured } := by
  have hNotWon : ∀ k r, Event.won k r ∉ [e] := fun k r h => hWon k r (mem_singleton.mp h).symm
  have hZero : ∀ k, [e].count (.invalidated k) = 0 := fun k =>
    count_eq_zero.mpr fun h => hInvalidated k (mem_singleton.mp h).symm
  refine { hs with
    owned := fun k o hk => ?_, unowned := fun k hk => ?_, order := ?_, called := fun k => ?_, reported := fun h g hMem => ?_,
    invalidations := fun t i hi g hg => ?_ }
  · obtain ⟨hPublished, hRead, hTaken, hCalls, hHanded⟩ := hs.owned k o hk
    refine ⟨hPublished, hRead, fun r => ?_, ?_, hHanded⟩
    · rw [mem_append, or_iff_left (hNotWon k r)]
      exact hTaken r
    · rw [count_append, hZero, Nat.add_zero]
      exact hCalls
  · obtain ⟨hTaken, hCalls, hHanded⟩ := hs.unowned k hk
    refine ⟨fun r hMem => ?_, ?_, hHanded⟩
    · exact (mem_append.mp hMem).elim (hTaken r) (hNotWon k r)
    · rw [count_append, hCalls, hZero]
  · exact pairwise_push hs.order hOrder
  · have hOld := hs.called k
    have hNew := hCalled k
    rw [count_append, count_append]
    dsimp only
    omega
  · obtain ⟨hFloor, hCleared⟩ := (mem_append.mp hMem).elim (hs.reported h g) fun hNew => hReported h g (mem_singleton.mp hNew).symm
    exact ⟨hFloor.congr rfl rfl (.inl rfl), hCleared.congr (Finset.Subset.refl _) rfl⟩
  · refine Keeps.invalidation ?_ (hs.invalidations t i hi g hg)
    exact .of_eq rfl rfl (.inl rfl) (Finset.Subset.refl _) rfl

omit hs in
theorem take_invalidations (s : State) (k : Nat) (o : Owner) (reason : Bool) : (s.take k o reason).invalidations = s.invalidations := by
  unfold State.take
  split <;> rfl

omit hs in
theorem take_not_active {o o' : Owner} {reason : Bool} (h : (s.take k o reason).owners k = some o') : o'.release ≠ .active := by
  unfold State.take at h
  split at h
  · dsimp only [State.setOwner] at h
    rw [update_self] at h
    cases h
    nofun
  · rename_i hTaken
    dsimp only [State.setOwner] at h
    rw [update_self] at h
    cases h
    exact hTaken

theorem Sound.endInvalidation : Sound { s with invalidations := update s.invalidations t none } := by
  refine hs.keepStreams (Finset.Subset.refl _) fun t' i' hi' g hg => ?_
  obtain ⟨-, ⟨⟩⟩ | ⟨-, hi'⟩ := update_eq_some_iff.mp hi'
  exact .inl ⟨t', hi'⟩

theorem Sound.nextStep (hi : s.invalidations t = some i) (hStep : nextStep s t i = some s') : Sound s' := by
  unfold Realtime.nextStep at hStep
  split at hStep
  · rename_i k rest hOwners hCurrent
    obtain ⟨o, hk, rfl⟩ := map_eq_some_iff.mp hStep
    have hTaken : Sound (s.take k o true) := hs.take hk (.inl rfl)
    rw [← take_invalidations s k o true]
    refine hTaken.setInvalidation fun g hg => ?_
    obtain ⟨hFloor, hKeep, hRest⟩ := hTaken.invalidations t i ((congrFun (take_invalidations s k o true) t).trans hi) g hg
    refine ⟨hFloor, hKeep, ?_⟩
    rintro _ ⟨⟩
    have hCleared := hRest (k :: rest) hOwners
    refine ⟨hCleared.connections, fun j x hj hStream hOld hActive => ?_⟩
    rcases mem_cons.mp (hCleared.owners j x hj hStream hOld hActive) with rfl | hLater
    · exact absurd hActive (take_not_active hj)
    · exact hLater
  · rename_i hOwners hCurrent
    cases hStep
    have hEnded : Sound { s with invalidations := update s.invalidations t none } := hs.endInvalidation
    cases hReport : i.report with
    | none =>
      rw [map_none, toList_none, append_nil]
      exact hEnded
    | some g =>
      obtain ⟨hFloor, -, hRest⟩ := hs.invalidations t i hi g hReport
      have hCleared := hRest [] hOwners
      refine hEnded.record nofun nofun (fun a _ k r _ h => nomatch h) (fun k => by simp) ?_
      rintro _ _ ⟨⟩
      exact ⟨hFloor.congr rfl rfl (.inl rfl), hCleared.congr (Finset.Subset.refl _) rfl⟩
  · cases hStep

theorem Sound.resume (hi : s.invalidations t = some i) (hStep : resumeStep s t i = some s') : Sound s' := by
  obtain ⟨k, -, hStep⟩ := bind_eq_some_iff.mp hStep
  obtain ⟨o, -, -, ⟨⟩⟩ := bind_guard hStep
  refine hs.setInvalidation fun g hg => ?_
  obtain ⟨hFloor, hKeep, hRest⟩ := hs.invalidations t i hi g hg
  exact ⟨hFloor, hKeep, hRest⟩

theorem Sound.capture (captured : List Nat) : Sound { s with captured := captured } :=
  hs.keepStreams (Finset.Subset.refl _) fun t _ hi _ _ => .inl ⟨t, hi⟩

theorem Sound.check (hk : s.owners k = some o) (hStep : checkStep s k o = some s') : Sound s' := by
  obtain ⟨-, hStep⟩ := ite_none_left_eq_some.mp hStep
  split at hStep
  · rename_i hActive
    cases hStep
    refine hs.record nofun nofun (fun a ha j r hWon hChecked => ?_) (fun j => ?_) nofun
    · cases hChecked
      subst hWon
      have hReason := ((hs.owned k o hk).won r).mp ha
      rw [hActive] at hReason
      cases hReason
    · rw [count_append, count_singleton, count_singleton, count_singleton]
      by_cases hSame : k = j
      · simp
      · simp [hSame]
  · cases hStep
    exact hs.capture _

theorem Sound.call (hStep : callStep s k = some s') : Sound s' := by
  obtain ⟨hMem, ⟨⟩⟩ := ite_none_right_eq_some.mp hStep
  refine hs.record nofun nofun (fun a _ j r _ h => nomatch h) (fun j => ?_) nofun
  have hPos := count_pos_iff.mpr hMem
  rw [count_erase, count_singleton, count_singleton]
  by_cases hSame : k = j
  · subst hSame
    simp
    omega
  · simp [hSame]

/-! ## Cleanup -/

omit hs in
theorem mem_any_iff {a b c : List Nat} {p : Prop} : k ∈ a ∨ k ∈ b ∨ k ∈ c ∨ p ↔ 0 < a.count k + b.count k + c.count k ∨ p := by
  rw [← count_pos_iff, ← count_pos_iff, ← count_pos_iff]
  grind

theorem Sound.setCleanups {cleanups requests started running : List Nat}
    (hCounted : ∀ k, let now := cleanups.count k + requests.count k + started.count k
      let before := s.cleanups.count k + s.requests.count k + s.started.count k
      now = before ∨ now ≤ before ∧ ∀ o, s.owners k = some o → s.gone o.stream = true) :
    Sound { s with cleanups := cleanups, requests := requests, started := started, running := running } := by
  have hKeeps : Keeps s { s with cleanups := cleanups, requests := requests, started := started, running := running } :=
    .of_eq rfl rfl (.inl rfl) (Finset.Subset.refl _) rfl
  refine { hs with
    counted := fun k => ?_
    accounted := fun k o hk hMem => ?_
    reported := hKeeps.reported hs
    invalidations := fun t i hi g hg => hKeeps.invalidation (hs.invalidations t i hi g hg) }
  · exact ((hCounted k).elim le_of_eq And.left).trans (hs.counted k)
  · have hOld := hs.accounted k o hk hMem
    rw [mem_any_iff] at hOld ⊢
    rcases hCounted k with hSame | ⟨-, hGone⟩
    · exact hSame ▸ hOld
    · exact .inr (hGone o hk)

omit hs in
theorem count_move {l : List Nat} (h : k ∈ l) (l' : List Nat) (j : Nat) : (l.erase k).count j + (l' ++ [k]).count j = l.count j + l'.count j := by
  have hPos := count_pos_iff.mpr h
  rw [count_erase, count_append, count_singleton]
  by_cases hSame : k = j
  · subst hSame
    simp only [beq_self_eq_true, if_true]
    omega
  · simp [hSame]

omit hs in
theorem count_erase_or (l : List Nat) (k j : Nat) : (l.erase k).count j = l.count j ∨ (l.erase k).count j ≤ l.count j ∧ j = k := by
  by_cases hSame : j = k
  · exact .inr ⟨erase_sublist.count_le j, hSame⟩
  · exact .inl (count_erase_of_ne hSame)

theorem Sound.checkCleanup (hk : s.owners k = some o) (hStep : checkCleanupStep s k o = some s') : Sound s' := by
  obtain ⟨hMem, hStep⟩ := ite_none_left_eq_some.mp hStep
  rw [not_not] at hMem
  split at hStep
  · rename_i hGone
    cases hStep
    refine hs.setCleanups fun j => ?_
    rcases count_erase_or s.cleanups k j with hSame | ⟨hLe, rfl⟩
    · exact .inl (by rw [hSame])
    refine .inr ⟨by omega, fun x hj => ?_⟩
    cases hk.symm.trans hj
    exact hGone
  · cases hStep
    refine hs.setCleanups fun j => .inl ?_
    have hMove := count_move hMem s.requests j
    omega

omit hs in
theorem gone_retire (hSome : (s.streams h).isSome) : (s.retire h).gone h = true := by
  obtain ⟨owner, hOwner⟩ := isSome_iff_exists.mp hSome
  unfold State.retire
  rw [hOwner]
  dsimp only
  split
  · rename_i hRetired
    exact gone_iff.mpr ⟨owner, hOwner, .inl hRetired⟩
  · exact gone_iff.mpr ⟨_, update_self _ _ _, .inl rfl⟩

omit hs in
theorem retire_frame (s : State) (h : Nat) (requests running : List Nat) :
    ({ s with requests := requests, running := running } : State).retire h = { s.retire h with requests := requests, running := running } ∧
    (s.retire h).owners = s.owners ∧ (s.retire h).cleanups = s.cleanups ∧ (s.retire h).requests = s.requests ∧
    (s.retire h).started = s.started := by
  unfold State.retire
  dsimp only
  split
  · exact ⟨rfl, rfl, rfl, rfl, rfl⟩
  · split <;> exact ⟨rfl, rfl, rfl, rfl, rfl⟩

theorem Sound.startCleanup {slot : Bool} (hk : s.owners k = some o) (hStep : startCleanupStep s k o slot = some s') : Sound s' := by
  obtain ⟨hMem, hStep⟩ := ite_none_left_eq_some.mp hStep
  rw [not_not] at hMem
  split at hStep
  · cases hStep
    refine hs.setCleanups fun j => .inl ?_
    have hMove := count_move hMem s.started j
    omega
  · cases hStep
    obtain ⟨hFrame, hOwners, hCleanups, hRequests, hStarted⟩ := retire_frame s o.stream (s.requests.erase k) s.running
    rw [hFrame]
    refine (hs.retire o.stream).setCleanups fun j => ?_
    rw [hRequests, hOwners]
    rcases count_erase_or s.requests k j with hSame | ⟨hLe, rfl⟩
    · exact .inl (by rw [hSame])
    refine .inr ⟨by omega, fun x hj => ?_⟩
    cases hk.symm.trans hj
    exact gone_retire (hs.based j o hk)

theorem Sound.setRunning {running : List Nat} : Sound { s with running := running } := hs.setCleanups fun _ => .inl rfl

theorem Sound.unsubscribe {ok : Bool} (hStep : unsubscribeStep s k o ok = some s') : Sound s' := by
  obtain ⟨-, hStep⟩ := ite_none_left_eq_some.mp hStep
  split at hStep
  · cases hStep
    exact hs.setRunning
  · cases hStep
    exact Sound.retire hs.setRunning o.stream

theorem Sound.next {a : Action} (hStep : step s a = some s') : Sound s' := by
  cases a with
  | status stream next => exact hs.status hStep
  | setStream stream => exact hs.setStream hStep
  | connect => exact hs.connect hStep
  | disconnect connection =>
    cases hStep
    exact hs.keepStreams (Finset.erase_subset _ _) fun t _ hi _ _ => .inl ⟨t, hi⟩
  | subscribe => exact hs.subscribe hStep
  | register => exact hs.register hStep
  | answer k id generation => exact bind_step hStep fun _ hk => hs.answer hk
  | refuse k => exact bind_step hStep fun _ => hs.refuse
  | publish k => exact bind_step hStep fun _ _ => hs.publish
  | decide live => exact hs.decide hStep
  | release k => exact bind_step hStep fun _ => hs.release
  | remove k => exact bind_step hStep fun _ => hs.remove
  | notify k => exact bind_step hStep fun _ => hs.notify
  | finish k => exact bind_step hStep fun _ => hs.finish
  | reject k => exact bind_step hStep fun _ => hs.reject
  | deliver h ids =>
    cases hStep
    exact hs.capture _
  | check k => exact bind_step hStep fun _ => hs.check
  | call k => exact hs.call hStep
  | invalidate stream => exact hs.invalidate hStep
  | collect t => exact bind_step hStep fun _ => hs.collect
  | next t => exact bind_step hStep fun _ => hs.nextStep
  | resume t => exact bind_step hStep fun _ => hs.resume
  | checkCleanup k => exact bind_step hStep fun _ => hs.checkCleanup
  | startCleanup k slot => exact bind_step hStep fun _ => hs.startCleanup
  | unsubscribe k ok => exact bind_step hStep fun _ _ => hs.unsubscribe
  | timeout k =>
    obtain ⟨o, hk, -, ⟨⟩⟩ := bind_guard hStep
    exact hs.retire o.stream
  | retire h =>
    cases hStep
    exact hs.retire h

omit hs

theorem sound_start : Sound start where
  streams _ _ h := by cases h
  locked _ _ h := by cases h
  based _ _ h := by cases h
  numbered _ _ h := by cases h
  owned _ _ h := by cases h
  unowned _ _ := ⟨fun _ h => not_mem_nil h, rfl, fun h => not_mem_nil h⟩
  listed _ _ h := by cases h
  order := .nil
  called _ := rfl
  counted _ := le_refl _
  accounted _ _ h := by cases h
  reported _ _ h := by cases h
  invalidations _ _ h := by cases h

end Streams

end Syntrix.Realtime
