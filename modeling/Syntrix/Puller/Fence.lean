import Syntrix.Puller.SubscriptionRuns
import Syntrix.Puller.Admission

/-! # The controls of a subscription

An admitted control comes after every event that had been broadcast at its fence. Its generation ends with
the next control that is not an admission.
-/
namespace Syntrix.Puller

open Lib List Function

namespace Subscription

section Graded

/-- Generations do not decrease, and an admitted one stays admitted. -/
def Follows (x y : Item) : Prop :=
  ∀ c c', x = .control c → y = .control c' →
    c.generation ≤ c'.generation ∧ (c.state = .admitted → c'.generation = c.generation → c'.state = .admitted)

structure Graded (s : Subscription) : Prop where
  positive : 1 ≤ s.generation
  bounds : ∀ c, Item.control c ∈ s.out → 1 ≤ c.generation ∧ c.generation ≤ s.generation
  sorted : s.out.Pairwise Follows
  current : ∀ c, Item.control c ∈ s.out → c.state = .admitted → c.generation = s.generation → s.catchUp = false
  fresh : s.pc = .registered → s.out = []

variable {s s' : Subscription}

variable (h : s.Graded)

include h

theorem Graded.silent (hOut : s'.out = s.out) (hGeneration : s'.generation = s.generation)
    (hCatchUp : s'.catchUp = s.catchUp ∨ s'.catchUp = false) (hPc : s'.pc ≠ .registered) : s'.Graded := by
  refine ⟨hGeneration ▸ h.positive, ?_, hOut ▸ h.sorted, ?_, fun hFresh => absurd hFresh hPc⟩
  · rw [hOut, hGeneration]
    exact h.bounds
  · rw [hOut, hGeneration]
    intro c hc hState hCurrent
    obtain hSame | hFalse := hCatchUp
    · exact hSame.trans (h.current c hc hState hCurrent)
    · exact hFalse

theorem Graded.deliver (e : StoreChangeEvent) (hPc : s.pc ≠ .registered) : (s.deliver e).Graded := by
  unfold Subscription.deliver
  split
  · have hControl : ∀ c, Item.control c ∈ s.out ++ [Item.event e (Function.update s.sub.currentPos e.backend (some e.position))] →
        Item.control c ∈ s.out := by
      intro c hc
      obtain hc | hc := mem_append.mp hc
      · exact hc
      · cases mem_singleton.mp hc
    refine ⟨h.positive, fun c hc => h.bounds c (hControl c hc), ?_, fun c hc => h.current c (hControl c hc),
      fun hFresh => absurd hFresh hPc⟩
    rw [pairwise_append]
    refine ⟨h.sorted, pairwise_singleton _ _, fun x _ y hy c c' _ hy' => ?_⟩
    cases (mem_singleton.mp hy).symm.trans hy'
  · exact h

theorem Graded.emit (state : AdmissionState) (reason : AdmissionReason) (hState : state = .admitted → s.catchUp = false)
    (hOther : state ≠ .admitted → ∀ c, Item.control c ∈ s.out → c.state = .admitted → c.generation ≠ s.generation)
    (hPc : s.pc ≠ .registered) : (s.emit state reason).Graded := by
  unfold Subscription.emit
  dsimp only
  split
  · refine ⟨h.positive, fun c hc => ?_, ?_, fun c hc hAdmitted hCurrent => ?_, fun hFresh => absurd hFresh hPc⟩
    · obtain hc | hc := mem_append.mp hc
      · exact h.bounds c hc
      · cases mem_singleton.mp hc
        exact ⟨h.positive, le_rfl⟩
    · rw [pairwise_append]
      refine ⟨h.sorted, pairwise_singleton _ _, ?_⟩
      rintro x hx y hy c c' rfl hy'
      cases (mem_singleton.mp hy).symm.trans hy'
      refine ⟨(h.bounds c hx).2, fun hAdmitted hSame => ?_⟩
      by_contra hNot
      exact hOther hNot c hx hAdmitted hSame.symm
    · obtain hc | hc := mem_append.mp hc
      · exact h.current c hc hAdmitted hCurrent
      · cases mem_singleton.mp hc
        exact hState hAdmitted
  · exact ⟨h.positive, h.bounds, h.sorted, h.current, fun hFresh => absurd hFresh hPc⟩

theorem Graded.next (s' : Subscription) (hOut : s'.out = s.out) (hGeneration : s'.generation = s.generation + 1)
    (hPc : s'.pc ≠ .registered) :
    s'.Graded ∧ ∀ c, Item.control c ∈ s'.out → c.state = .admitted → c.generation ≠ s'.generation := by
  have hLess : ∀ c, Item.control c ∈ s'.out → c.generation < s'.generation := by
    intro c hc
    rw [hOut] at hc
    rw [hGeneration]
    exact Nat.lt_succ_of_le (h.bounds c hc).2
  refine ⟨⟨by omega, fun c hc => ⟨?_, (hLess c hc).le⟩, hOut ▸ h.sorted, fun c hc _ hCurrent => ?_,
    fun hFresh => absurd hFresh hPc⟩, fun c hc _ => (hLess c hc).ne⟩
  · rw [hOut] at hc
    exact (h.bounds c hc).1
  · exact absurd hCurrent (hLess c hc).ne

theorem Graded.goto {pc : Pc} (hPc : pc ≠ .registered) : Graded { s with pc := pc } :=
  h.silent rfl rfl (.inl rfl) hPc

theorem Graded.recover (hPc : s.pc ≠ .registered) : s.recover.Graded := by
  obtain ⟨hNext, hOver⟩ := h.next { s with
    catchUp := true, recovering := true, enteredLive := false, ready := s.ready && !s.monitored,
    generation := s.generation + 1 } rfl rfl hPc
  exact (hNext.emit .recovering .overflow nofun (fun _ => hOver) hPc).goto nofun

theorem Graded.take (e : StoreChangeEvent) (rest : List StoreChangeEvent) (hPc : s.pc ≠ .registered) : (s.take e rest).Graded :=
  Graded.deliver (s := { s with sub := { s.sub with ch := rest } }) (h.silent rfl rfl (.inl rfl) hPc) e hPc

theorem Graded.check (hPc : s.pc = .top) (available : Bool) : (s.check available).Graded := by
  have hTop : s.pc ≠ .registered := by rw [hPc]; nofun
  unfold Subscription.check
  split
  · split
    · exact h.goto nofun
    · obtain ⟨hNext, hOver⟩ := h.next { s with generation := s.generation + 1, ready := false, enteredLive := false } rfl rfl hTop
      exact (hNext.emit .recovering .sourceUnavailable nofun (fun _ => hOver) hTop).goto nofun
  · split
    · rename_i hCatchUp
      refine (h.emit .replaying .none nofun (fun _ c hc hState hCurrent => ?_) hTop).goto ?_
      · exact absurd ((h.current c hc hState hCurrent).symm.trans hCatchUp) (by decide)
      · split <;> nofun
    · exact h.goto nofun

theorem Graded.read {iters : Iterators} : (s.read iters).Graded := by
  unfold Subscription.read
  split
  · dsimp only
    split
    · refine Graded.deliver ?_ _ nofun
      exact h.goto nofun
    · exact h.goto nofun
  · split
    · exact h.silent rfl rfl (.inl rfl) nofun
    · exact h.silent rfl rfl (.inr rfl) nofun

variable {a : SubscriptionAction}

theorem Graded.loop (hFlags : s.Flags) (hStep : LoopTo s a s') : s'.Graded := by
  cases hStep with
  | launch hPc =>
    have hOut := h.fresh hPc
    unfold Subscription.launch
    have hLaunch : Graded { s with
        recovering := s.sub.recoveryPending, catchUp := s.after.isSome || s.sub.recoveryPending, pc := .top } := by
      refine ⟨h.positive, ?_, hOut ▸ .nil, ?_, by rintro ⟨⟩⟩
      · simp [hOut]
      · simp [hOut]
    have hEmit := hLaunch.emit .starting .none (by rintro ⟨⟩) (fun _ => by simp [hOut]) (by rintro ⟨⟩)
    refine hEmit.silent ?_ ?_ (.inl ?_) (by rintro ⟨⟩)
    all_goals
      unfold Subscription.emit
      dsimp only
      split <;> rfl
  | check hPc available => exact h.check hPc available
  | read hPc => exact h.read
  | enterLive hPc =>
    refine h.silent rfl rfl (.inl rfl) ?_
    split <;> rintro ⟨⟩
  | drain hPc hCh => exact h.silent rfl rfl (.inl rfl) (by rw [hPc]; rintro ⟨⟩)
  | @pick hPc e rest hCh | @receive hPc e rest hCh hPending =>
    exact (h.take e rest (by rw [hPc]; rintro ⟨⟩)).goto (by rintro ⟨⟩)
  | abandon hPc hPending => exact h.recover (by rw [hPc]; rintro ⟨⟩)
  | announce hPc hOpen =>
    have hReady : Graded { s with ready := true } := h.silent rfl rfl (.inl rfl) (by rw [hPc]; rintro ⟨⟩)
    refine (hReady.emit .admitted .none (fun _ => ?_) (fun hNot => absurd rfl hNot) (by rw [hPc]; rintro ⟨⟩)).goto (by rintro ⟨⟩)
    exact hFlags.live (by rw [hPc]; rfl)
  | wake hPc hRecovery =>
    have hWoken : Graded { s with sub := { s.sub with recovery := false } } :=
      h.silent rfl rfl (.inl rfl) (by rw [hPc]; rintro ⟨⟩)
    exact hWoken.recover (by rw [hPc]; rintro ⟨⟩)
  | @overflow hPc e rest hCh hPending =>
    have hTaken : s.pc ≠ .registered := by rw [hPc]; rintro ⟨⟩
    refine (h.take e rest hTaken).recover ?_
    rw [Subscription.take, (deliver_frame _ _).1]
    exact hTaken
  | _ => exact h.silent rfl rfl (.inl rfl) (by rintro ⟨⟩)

theorem Graded.step (hFlags : s.Flags) (hStep : s.step a = some s') : s'.Graded := by
  obtain ⟨e, -, rfl⟩ | ⟨b, e, rest, -, -, rfl⟩ | ⟨-, rfl⟩ | hLoop := step_cases hStep
  · exact { h with }
  · exact { h with }
  · exact h.goto nofun
  · exact h.loop hFlags hLoop

end Graded

section Fenced

/-- Only events from the starting position on are broadcast to the subscription. -/
def Admissible (s : Subscription) : SubscriptionAction → Prop
  | .broadcast b => ∀ e ∈ (s.unsent b).head?, ∀ p ∈ s.after, ∀ pos ∈ p b, pos.clusterTime ≤ e.clusterTime
  | a => s.Allowed a

/-- What had been broadcast at the fence has been delivered before an admission is announced. -/
structure Fenced (s : Subscription) : Prop where
  monitored : s.monitored = true
  started : ∀ b, ∀ e ∈ s.broadcasts b, ∀ p ∈ s.after, ∀ pos ∈ p b, pos.clusterTime ≤ e.clusterTime
  fence : ∀ b, ∀ e ∈ s.fence b, e ∈ s.broadcasts b
  checked : s.pc = .checking → s.sub.recoveryPending = false → ∀ b, ∀ e ∈ s.fence b, e ∈ s.delivered
  passed : s.pc = .announcing → ∀ b, ∀ e ∈ s.fence b, e ∈ s.delivered
  announced : ∀ (k : Nat) (c : Control), s.out[k]? = some (.control c) → c.state = .admitted →
    ∀ b, ∀ e ∈ c.fence b, ∃ p, Item.event e p ∈ s.out.take k

variable {s s' : Subscription}

variable {e : StoreChangeEvent}

theorem mem_out_of_delivered (h : e ∈ s.delivered) : ∃ p, Item.event e p ∈ s.out := by
  obtain ⟨⟨f, p⟩, hMem, rfl⟩ := List.mem_map.mp h
  obtain ⟨item, hItem, hSome⟩ := mem_filterMap.mp hMem
  cases item with
  | event e' p' =>
    cases hSome
    exact ⟨p, hItem⟩
  | control c => cases hSome

theorem Fenced.settled (h : s.Fenced) (hInvariant : s.Invariant) (hLive : isLive s.pc = true) (hCh : s.sub.ch = [])
    (hPending : s.sub.recoveryPending = false) : ∀ b, ∀ e ∈ s.fence b, e ∈ s.delivered := by
  intro b e he
  have hMem := h.fence b e he
  have hHistory : e ∈ s.history b := mem_append_left _ (mem_append_right _ hMem)
  cases hInvariant.ordered.backend b e hHistory
  have hDue : s.Due e :=
    ⟨⟨mem_append_left _ (mem_append_right _ hMem), h.started _ e hMem⟩, mem_append_right _ hMem⟩
  exact hDue.delivered hInvariant hLive hCh hPending

theorem announced_append {out : List Item} {more : List Item}
    (h : ∀ (k : Nat) (c : Control), out[k]? = some (.control c) → c.state = .admitted →
      ∀ b, ∀ e ∈ c.fence b, ∃ p, Item.event e p ∈ out.take k)
    (hMore : ∀ c, Item.control c ∈ more → c.state = .admitted → ∀ b, ∀ e ∈ c.fence b, ∃ p, Item.event e p ∈ out) :
    ∀ (k : Nat) (c : Control), (out ++ more)[k]? = some (.control c) → c.state = .admitted →
      ∀ b, ∀ e ∈ c.fence b, ∃ p, Item.event e p ∈ (out ++ more).take k := by
  intro k c hk hState b e he
  by_cases hShort : k < out.length
  · rw [getElem?_append_left hShort] at hk
    rw [take_append_of_le_length hShort.le]
    exact h k c hk hState b e he
  · rw [getElem?_append_right (not_lt.mp hShort)] at hk
    obtain ⟨p, hp⟩ := hMore c (mem_of_getElem? hk) hState b e he
    refine ⟨p, ?_⟩
    rw [take_append, take_of_length_le (not_lt.mp hShort)]
    exact mem_append_left _ hp

structure Sends (s s' : Subscription) : Prop where
  fence : s'.fence = s.fence
  out : ∃ more, s'.out = s.out ++ more ∧ ∀ c, Item.control c ∈ more → c.state ≠ .admitted

namespace Sends

theorem silent (hFence : s'.fence = s.fence) (hOut : s'.out = s.out) : Sends s s' :=
  ⟨hFence, [], by rw [hOut, append_nil], nofun⟩

theorem trans {s'' : Subscription} (h : Sends s s') (h' : Sends s' s'') : Sends s s'' := by
  obtain ⟨more, hOut, hMore⟩ := h.out
  obtain ⟨more', hOut', hMore'⟩ := h'.out
  refine ⟨h'.fence.trans h.fence, more ++ more', by rw [hOut', hOut, append_assoc], fun c hc => ?_⟩
  exact (mem_append.mp hc).elim (hMore c) (hMore' c)

theorem after (s : Subscription) {t : Subscription} (h : Sends t s') (hFence : t.fence = s.fence) (hOut : t.out = s.out) :
    Sends s s' :=
  (silent hFence hOut).trans h

theorem emit (s : Subscription) (state : AdmissionState) (reason : AdmissionReason) (hState : state ≠ .admitted) :
    Sends s (s.emit state reason) := by
  unfold Subscription.emit
  dsimp only
  split
  · refine ⟨rfl, _, rfl, fun c hc => ?_⟩
    cases mem_singleton.mp hc
    exact hState
  · exact .silent rfl rfl

theorem deliver (s : Subscription) (e : StoreChangeEvent) : Sends s (s.deliver e) := by
  unfold Subscription.deliver
  split
  · refine ⟨rfl, _, rfl, fun c hc => ?_⟩
    cases mem_singleton.mp hc
  · exact .silent rfl rfl

theorem take (s : Subscription) (e : StoreChangeEvent) (rest : List StoreChangeEvent) : Sends s (s.take e rest) :=
  .after s (.deliver { s with sub := { s.sub with ch := rest } } e) rfl rfl

theorem goto (h : Sends s s') (pc : Pc) : Sends s { s' with pc := pc } := h.trans (.silent rfl rfl)

theorem recover (s : Subscription) : Sends s s.recover :=
  goto (.after s (.emit { s with
    catchUp := true, recovering := true, enteredLive := false, ready := s.ready && !s.monitored,
    generation := s.generation + 1 } .recovering .overflow nofun) rfl rfl) .top

theorem check (s : Subscription) (available : Bool) : Sends s (s.check available) := by
  unfold Subscription.check
  split
  · split
    · exact .silent rfl rfl
    · exact goto (.after s (.emit { s with generation := s.generation + 1, ready := false, enteredLive := false } .recovering
        .sourceUnavailable nofun) rfl rfl) .waiting
  · split
    · exact (emit s .replaying .none nofun).goto _
    · exact .silent rfl rfl

theorem read (s : Subscription) (iters : Iterators) : Sends s (s.read iters) := by
  unfold Subscription.read
  split
  · rename_i head hHead
    dsimp only
    split
    · exact .after s (.deliver { s with pc := .replaying (Function.update iters head.backend head.rest) } head.event) rfl rfl
    · exact .silent rfl rfl
  · split <;> exact .silent rfl rfl

theorem launch (s : Subscription) : Sends s s.launch :=
  goto (.after s (.emit { s with
    recovering := s.sub.recoveryPending, catchUp := s.after.isSome || s.sub.recoveryPending } .starting .none
    nofun) rfl rfl) .top

end Sends

theorem Fenced.sends (h : s.Fenced) (hSource : SameSource s s') (hSends : Sends s s')
    (hChecked : s'.pc = .checking → s'.sub.recoveryPending = false → ∀ b, ∀ e ∈ s.fence b, e ∈ s'.delivered)
    (hPassed : s'.pc = .announcing → ∀ b, ∀ e ∈ s.fence b, e ∈ s'.delivered) : s'.Fenced := by
  obtain ⟨more, hOut, hMore⟩ := hSends.out
  refine ⟨hSource.monitored.trans h.monitored, ?_, ?_, ?_, ?_, ?_⟩
  · rw [hSource.broadcasts, hSource.after]
    exact h.started
  · rw [hSource.broadcasts, hSends.fence]
    exact h.fence
  · rw [hSends.fence]
    exact hChecked
  · rw [hSends.fence]
    exact hPassed
  · rw [hOut]
    exact announced_append h.announced fun c hc hState => absurd hState (hMore c hc)

theorem Fenced.away (h : s.Fenced) (hSource : SameSource s s') (hSends : Sends s s') (hPc : s'.pc ≠ .checking)
    (hPc' : s'.pc ≠ .announcing) : s'.Fenced :=
  h.sends hSource hSends (fun hAt => absurd hAt hPc) fun hAt => absurd hAt hPc'

theorem check_pc (s : Subscription) (available : Bool) :
    (s.check available).pc ≠ .checking ∧ (s.check available).pc ≠ .announcing := by
  unfold Subscription.check
  split
  · split <;> exact ⟨nofun, nofun⟩
  split
  · split <;> exact ⟨nofun, nofun⟩
  · exact ⟨nofun, nofun⟩

theorem read_pc (s : Subscription) (iters : Iterators) : (s.read iters).pc ≠ .checking ∧ (s.read iters).pc ≠ .announcing := by
  unfold Subscription.read
  split
  · dsimp only
    split
    · rw [(deliver_frame _ _).1]
      exact ⟨nofun, nofun⟩
    · exact ⟨nofun, nofun⟩
  · split <;> exact ⟨nofun, nofun⟩

variable {a : SubscriptionAction}

theorem Fenced.loop (h : s.Fenced) (hInvariant : s.Invariant) (hStep : LoopTo s a s') : s'.Fenced := by
  have hSource := hStep.source
  cases hStep with
  | launch hPc => exact h.away hSource (.launch s) nofun nofun
  | check hPc available => exact h.away hSource (.check s available) (check_pc s available).1 (check_pc s available).2
  | @read iters hPc => exact h.away hSource (.read s iters) (read_pc s iters).1 (read_pc s iters).2
  | enterLive hPc =>
    refine h.away hSource (.silent rfl rfl) ?_ ?_
    all_goals
      split <;> nofun
  | drain hPc hCh => exact h.away hSource (.silent rfl rfl) (by rw [hPc]; nofun) (by rw [hPc]; nofun)
  | unmonitored hPc hMonitored available => exact absurd (h.monitored.symm.trans hMonitored) (by decide)
  | fence hPc =>
    exact ⟨h.monitored, h.started, fun _ _ he => he, nofun, nofun, h.announced⟩
  | overflowed hPc hPending =>
    exact h.sends hSource (.silent rfl rfl) (fun _ hFalse => absurd (hPending.symm.trans hFalse) (by decide)) nofun
  | picked hPc hCh =>
    refine h.sends hSource (.silent rfl rfl) (fun _ hPending => ?_) nofun
    exact h.settled hInvariant (by rw [hPc]; rfl) hCh hPending
  | @pick hPc e rest hCh | @receive hPc e rest hCh hPending => exact h.away hSource ((Sends.take s e rest).goto _) nofun nofun
  | abandon hPc hPending => exact h.away hSource (.recover s) nofun nofun
  | settle hPc hPending => exact h.sends hSource (.silent rfl rfl) nofun fun _ => h.checked hPc hPending
  | announce hPc hOpen =>
    have hEmit : emit { s with ready := true } .admitted .none =
        { s with ready := true, admissionState := .admitted
                 out := s.out ++ [.control ⟨.admitted, s.generation, .none, s.fence⟩] } := by
      simp [emit, h.monitored]
    rw [hEmit]
    refine ⟨h.monitored, h.started, h.fence, nofun, nofun, announced_append h.announced fun c hc _ b e he => ?_⟩
    cases mem_singleton.mp hc
    exact mem_out_of_delivered (h.passed hPc b e he)
  | wake hPc hRecovery =>
    exact h.away hSource (.after s (.recover { s with sub := { s.sub with recovery := false } }) rfl rfl) nofun nofun
  | @overflow hPc e rest hCh hPending => exact h.away hSource ((Sends.take s e rest).trans (.recover _)) nofun nofun
  | _ => exact h.away hSource (.silent rfl rfl) nofun nofun

theorem Fenced.broadcast (h : s.Fenced) {b : Bytes} {rest : List StoreChangeEvent}
    (hStarted : ∀ p ∈ s.after, ∀ pos ∈ p b, pos.clusterTime ≤ e.clusterTime) : (s.broadcast b e rest).Fenced := by
  have hPending : (s.sub.enqueue e).recoveryPending = false → s.sub.recoveryPending = false := by
    obtain ⟨hTrue, hEq⟩ | ⟨hFalse, -⟩ := enqueue_cases s.sub e
    · rw [hEq]
      exact fun hFalse => hFalse
    · exact fun _ => hFalse
  refine ⟨h.monitored, fun c f hf => ?_, fun c f hf => ?_, fun hPc hFalse => h.checked hPc (hPending hFalse), h.passed,
    h.announced⟩
  · rcases eq_or_ne c b with rfl | hc
    · simp only [Subscription.broadcast, update_self] at hf
      obtain hf | hf := mem_append.mp hf
      · exact h.started c f hf
      · rw [mem_singleton.mp hf]
        exact hStarted
    · simp only [Subscription.broadcast, update_of_ne hc] at hf
      exact h.started c f hf
  · have hMem := h.fence c f hf
    rcases eq_or_ne c b with rfl | hc
    · simp only [Subscription.broadcast, update_self]
      exact mem_append_left _ hMem
    · simp only [Subscription.broadcast, update_of_ne hc]
      exact hMem

theorem Fenced.step (h : s.Fenced) (hInvariant : s.Invariant) (hAllowed : s.Admissible a) (hStep : s.step a = some s') :
    s'.Fenced := by
  obtain ⟨e, -, rfl⟩ | ⟨b, e, rest, rfl, hUnsent, rfl⟩ | ⟨-, rfl⟩ | hLoop := step_cases hStep
  · exact { h with }
  · exact h.broadcast (hAllowed e (by rw [hUnsent]; rfl))
  · exact { h with checked := nofun, passed := nofun }
  · exact h.loop hInvariant hLoop

end Fenced

section Serves

variable {s s' : Subscription}

theorem Sends.isPrefix (h : Sends s s') : s.out <+: s'.out := by
  obtain ⟨more, hOut, -⟩ := h.out
  exact ⟨more, hOut.symm⟩

variable {a : SubscriptionAction}

theorem LoopTo.out_isPrefix (h : LoopTo s a s') : s.out <+: s'.out := by
  cases h with
  | launch hPc => exact (Sends.launch s).isPrefix
  | check hPc available => exact (Sends.check s available).isPrefix
  | @read iters hPc => exact (Sends.read s iters).isPrefix
  | @pick hPc e rest hCh | @receive hPc e rest hCh hPending => exact (Sends.take s e rest).isPrefix
  | abandon hPc hPending => exact (Sends.recover s).isPrefix
  | announce hPc hOpen =>
    unfold Subscription.emit
    dsimp only
    split
    · exact prefix_append _ _
    · exact prefix_refl _
  | wake hPc hRecovery => exact (Sends.recover { s with sub := { s.sub with recovery := false } }).isPrefix
  | @overflow hPc e rest hCh hPending => exact ((Sends.take s e rest).trans (.recover _)).isPrefix
  | _ => exact prefix_refl _

theorem step_out_isPrefix (hStep : s.step a = some s') : s.out <+: s'.out := by
  obtain ⟨e, -, rfl⟩ | ⟨b, e, rest, -, -, rfl⟩ | ⟨-, rfl⟩ | hLoop := step_cases hStep
  · exact prefix_refl _
  · exact prefix_refl _
  · exact prefix_refl _
  · exact hLoop.out_isPrefix

structure Serves (s : Subscription) : Prop where
  invariant : s.Invariant
  flags : s.Flags
  graded : s.Graded
  fenced : s.Fenced

theorem Serves.step (h : s.Serves) (hAllowed : s.Admissible a) (hStep : s.step a = some s') : s'.Serves := by
  refine ⟨h.invariant.step h.flags ?_ hStep, h.flags.step hStep, h.graded.step h.flags hStep,
    h.fenced.step h.invariant hAllowed hStep⟩
  cases a with
  | broadcast b => trivial
  | _ => exact hAllowed

theorem start_serves {backends : List Bytes} {after : Option Progress} {capacity : Nat}
    {earlier unsent : Bytes → List StoreChangeEvent} (h : (start true backends after capacity earlier unsent).Ordered) :
    (start true backends after capacity earlier unsent).Serves :=
  ⟨start_invariant h, start_flags, ⟨le_rfl, nofun, .nil, nofun, fun _ => rfl⟩, ⟨rfl, nofun, nofun, nofun, nofun, nofun⟩⟩

end Serves

end Subscription

end Syntrix.Puller
