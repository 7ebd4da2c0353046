import Syntrix.Puller.CatchUp

/-! # Runs of a subscription

Whatever happens to the live queue, the events of a backend are delivered without a gap and without a
duplicate, and every position that goes with an event is one to start again from.
-/
namespace Syntrix.Puller

open Lib List

/-- What capture left behind: every backend has its own events, in the order of their cluster times, and at
most one of them is written but not broadcast yet. -/
structure CapturedSource (backends : List Bytes) (earlier unsent : Bytes → List StoreChangeEvent) : Prop where
  backend : ∀ b, ∀ e ∈ earlier b ++ unsent b, e.backend = b
  configured : ∀ b, ∀ e ∈ earlier b ++ unsent b, b ∈ backends
  sorted : ∀ b, (earlier b ++ unsent b).Pairwise fun x y => x.clusterTime ≤ y.clusterTime
  distinct : ∀ b, ((earlier b ++ unsent b).map StoreChangeEvent.eventID).Nodup
  last : ∀ b, (unsent b).length ≤ 1

namespace Subscription

section Source

variable {s s' : Subscription} {x : StoreChangeEvent}

structure SameSource (s s' : Subscription) : Prop where
  monitored : s'.monitored = s.monitored
  after : s'.after = s.after
  earlier : s'.earlier = s.earlier
  broadcasts : s'.broadcasts = s.broadcasts
  unsent : s'.unsent = s.unsent

theorem emit_source (s : Subscription) (state : AdmissionState) (reason : AdmissionReason) :
    SameSource s (s.emit state reason) := by
  unfold emit
  dsimp only
  split <;> exact ⟨rfl, rfl, rfl, rfl, rfl⟩

theorem deliver_source (s : Subscription) (e : StoreChangeEvent) : SameSource s (s.deliver e) := by
  unfold deliver
  split <;> exact ⟨rfl, rfl, rfl, rfl, rfl⟩

theorem check_source (s : Subscription) (available : Bool) : SameSource s (s.check available) := by
  unfold check
  split
  · split
    · exact ⟨rfl, rfl, rfl, rfl, rfl⟩
    · exact { emit_source { s with generation := s.generation + 1, ready := false, enteredLive := false } .recovering
        .sourceUnavailable with }
  · split
    · exact { emit_source s .replaying .none with }
    · exact ⟨rfl, rfl, rfl, rfl, rfl⟩

variable {a : SubscriptionAction}

theorem LoopTo.source (h : LoopTo s a s') : SameSource s s' := by
  have hRecover : ∀ t : Subscription, SameSource t t.recover := by
    intro t
    exact { emit_source { t with
      catchUp := true, recovering := true, enteredLive := false, ready := t.ready && !t.monitored,
      generation := t.generation + 1 } .recovering .overflow with }
  cases h with
  | launch hPc =>
    exact { emit_source { s with
      recovering := s.sub.recoveryPending, catchUp := s.after.isSome || s.sub.recoveryPending } .starting .none with }
  | check hPc available => exact check_source s available
  | @read iters hPc =>
    unfold Subscription.read
    split
    · rename_i head hHead
      dsimp only
      split
      · exact { deliver_source { s with pc := .replaying (Function.update iters head.backend head.rest) } head.event with }
      · exact ⟨rfl, rfl, rfl, rfl, rfl⟩
    · split <;> exact ⟨rfl, rfl, rfl, rfl, rfl⟩
  | @pick hPc e rest hCh | @receive hPc e rest hCh hPending =>
    exact { deliver_source { s with sub := { s.sub with ch := rest } } e with }
  | abandon hPc hPending => exact hRecover s
  | announce hPc hOpen =>
    exact { emit_source { s with ready := true } .admitted .none with }
  | wake hPc hRecovery =>
    exact { hRecover { s with sub := { s.sub with recovery := false } } with }
  | @overflow hPc e rest hCh hPending =>
    obtain ⟨h₁, h₂, h₃, h₄, h₅⟩ := deliver_source { s with sub := { s.sub with ch := rest } } e
    obtain ⟨g₁, g₂, g₃, g₄, g₅⟩ := hRecover (s.take e rest)
    exact ⟨g₁.trans h₁, g₂.trans h₂, g₃.trans h₃, g₄.trans h₄, g₅.trans h₅⟩
  | _ => exact ⟨rfl, rfl, rfl, rfl, rfl⟩

theorem SameSource.base (h : SameSource s s') : s'.base = s.base := by
  funext b
  simp only [Subscription.base, h.after, h.earlier]

theorem Owed.step (h : s.Owed x) (hStep : s.step a = some s') : s'.Owed x := by
  obtain ⟨e, -, rfl⟩ | ⟨b, e, rest, -, hUnsent, rfl⟩ | ⟨-, rfl⟩ | hLoop := step_cases hStep
  · refine ⟨?_, h.2⟩
    obtain hMem | hMem := mem_append.mp h.1
    · exact mem_append_left _ hMem
    refine mem_append_right _ ?_
    rcases eq_or_ne x.backend e.backend with hb | hb
    · rw [hb] at hMem
      simp [written, hb, hMem]
    · simpa [written, hb] using hMem
  · rw [(broadcast_kept hUnsent).owed]
    exact h
  · exact h
  · have hSource := hLoop.source
    rw [Owed, hSource.base, hSource.broadcasts, hSource.unsent, hSource.after]
    exact h

def Due (s : Subscription) (x : StoreChangeEvent) : Prop :=
  s.Owed x ∧ x ∈ s.base x.backend ++ s.broadcasts x.backend

theorem Due.step (h : s.Due x) (hStep : s.step a = some s') : s'.Due x := by
  refine ⟨h.1.step hStep, ?_⟩
  obtain ⟨e, -, rfl⟩ | ⟨b, e, rest, -, hUnsent, rfl⟩ | ⟨-, rfl⟩ | hLoop := step_cases hStep
  · exact h.2
  · obtain hMem | hMem := mem_append.mp h.2
    · exact mem_append_left _ hMem
    refine mem_append_right _ ?_
    rcases eq_or_ne x.backend b with hb | hb
    · rw [hb] at hMem
      simp [broadcast, hb, hMem]
    · simpa [broadcast, hb] using hMem
  · exact h.2
  · have hSource := hLoop.source
    rw [hSource.base, hSource.broadcasts]
    exact h.2

theorem Due.foldlM {actions : List SubscriptionAction} (h : s.Due x) (hFold : actions.foldlM Subscription.step s = some s') :
    s'.Due x := by
  induction actions generalizing s with
  | nil =>
    cases hFold
    exact h
  | cons a actions ih =>
    obtain ⟨next, hNext, hRest⟩ := Option.bind_eq_some_iff.mp hFold
    exact ih (h.step hNext) hRest

theorem Due.delivered (hDue : s.Due x) (h : s.Invariant) (hLive : isLive s.pc = true) (hCh : s.sub.ch = [])
    (hPending : s.sub.recoveryPending = false) : x ∈ s.delivered := by
  obtain ⟨taken, dropped, hSplit, hPhase⟩ := h.phase
  refine (phase_iff_settled hLive).mp hPhase x hDue.1 ?_
  have hMem := hDue.2
  rw [hSplit.parts, hSplit.pending hPending, hCh] at hMem
  simpa using hMem

end Source

section Sequential

variable {s s' : Subscription} {x : StoreChangeEvent}

/-- Capture broadcasts an event of a backend before it writes the next one. -/
def Sequential (s : Subscription) : SubscriptionAction → Prop
  | .write e => s.Captures e ∧ s.unsent e.backend = []
  | _ => True

instance (s : Subscription) (e : StoreChangeEvent) : Decidable (s.Captures e) :=
  decidable_of_iff (e.backend ∈ s.backends ∧ (∀ x ∈ s.history e.backend, x.clusterTime ≤ e.clusterTime) ∧
      ∀ x ∈ s.history e.backend, x.eventID ≠ e.eventID)
    ⟨fun h => ⟨h.1, h.2.1, h.2.2⟩, fun h => ⟨h.configured, h.latest, h.distinct⟩⟩

instance (s : Subscription) : (a : SubscriptionAction) → Decidable (s.Sequential a)
  | .write e =>
    decidable_of_iff (s.Captures e ∧ (s.unsent e.backend).isEmpty = true) (by simp [Sequential, List.isEmpty_iff])
  | .broadcast _ | .launch | .check _ | .tick _ | .drain | .beginRecovery | .floors | .openScan _ | .merge | .read
  | .enterLive | .fence | .look | .pick | .settle | .wake | .receive | .stop => .isTrue trivial

theorem Invariant.readsLast (h : s.Invariant) (hLast : ∀ b, (s.unsent b).length ≤ 1) : s.ReadsLast := by
  intro iters head hPc hHead _ hUnsent y hy
  obtain ⟨taken, dropped, -, hPhase⟩ := h.phase
  have hScanned : s.Scanned taken iters head.backend := by
    unfold Phase at hPhase
    rw [hPc] at hPhase
    exact hPhase head.backend
  have hKnown := hScanned.known y (by rw [leastHead_heads hHead]; exact mem_cons_of_mem _ hy)
  have hOnly : s.unsent head.backend = [head.event] := by
    obtain ⟨e, he⟩ := length_eq_one_iff.mp (le_antisymm (hLast _) (length_pos_of_mem hUnsent))
    rw [he] at hUnsent ⊢
    rw [mem_singleton.mp hUnsent]
  have hSorted := h.ordered.sorted head.backend
  rw [history, hOnly] at hKnown hSorted
  obtain hy | hy := mem_append.mp hKnown
  · exact (pairwise_append.mp hSorted).2.2 y hy _ (mem_singleton_self _)
  · rw [mem_singleton.mp hy]

structure Kempt (s : Subscription) : Prop where
  invariant : s.Invariant
  flags : s.Flags
  last : ∀ b, (s.unsent b).length ≤ 1

theorem Kempt.step (h : s.Kempt) {a : SubscriptionAction} (hAllowed : s.Sequential a) (hStep : s.step a = some s') :
    s'.Kempt := by
  refine ⟨h.invariant.step h.flags ?_ hStep, h.flags.step hStep, ?_⟩
  · cases a with
    | write e => exact hAllowed.1
    | read => exact h.invariant.readsLast h.last
    | _ => trivial
  · obtain ⟨e, rfl, rfl⟩ | ⟨b, e, rest, -, hUnsent, rfl⟩ | ⟨-, rfl⟩ | hLoop := step_cases hStep
    · intro b
      rcases eq_or_ne b e.backend with rfl | hb
      · simp [written, hAllowed.2]
      · simpa [written, hb] using h.last b
    · intro c
      rcases eq_or_ne c b with rfl | hc
      · have hOne := h.last c
        rw [hUnsent] at hOne
        simp only [broadcast, Function.update_self]
        exact (Nat.le_of_succ_le hOne)
      · simpa [broadcast, hc] using h.last c
    · exact h.last
    · rw [hLoop.source.unsent]
      exact h.last

variable {monitored : Bool} {backends : List Bytes} {after : Option Progress} {capacity : Nat}
  {earlier unsent : Bytes → List StoreChangeEvent} {actions : List SubscriptionAction}

theorem kempt_of_runs (hCaptured : CapturedSource backends earlier unsent)
    (h : Runs step Sequential (start monitored backends after capacity earlier unsent) actions s) : s.Kempt := by
  have hHistory : (start monitored backends after capacity earlier unsent).history = fun b => earlier b ++ unsent b := by
    funext b
    simp [history, start]
  refine h.invariant ⟨start_invariant ⟨?_, ?_, ?_, ?_⟩, start_flags, hCaptured.last⟩
    fun _ _ _ hKempt hAllowed hStep => hKempt.step hAllowed hStep
  · rw [hHistory]
    exact hCaptured.backend
  · rw [hHistory]
    exact hCaptured.configured
  · rw [hHistory]
    exact hCaptured.sorted
  · rw [hHistory]
    exact hCaptured.distinct

theorem delivers_owed (hCaptured : CapturedSource backends earlier unsent)
    (h : Runs step Sequential (start monitored backends after capacity earlier unsent) actions s)
    (hRunning : s.pc ≠ .stopped) (hx : s.Owed x) :
    ∃ (more : List SubscriptionAction) (t : Subscription),
      (∀ a ∈ more, a.drives = true) ∧ more.foldlM step s = some t ∧ x ∈ t.delivered := by
  have hSequential : ∀ a : SubscriptionAction, a.drives = true → ∀ t : Subscription, t.Sequential a := by
    intro a ha t
    cases a with
    | write e => cases ha
    | _ => trivial
  have hDeliver : ∀ {taken : List SubscriptionAction} {t : Subscription},
      Runs step Sequential (start monitored backends after capacity earlier unsent) taken t → t.pc ≠ .stopped → t.Due x →
      ∃ (more : List SubscriptionAction) (u : Subscription),
        (∀ a ∈ more, a.drives = true) ∧ more.foldlM step t = some u ∧ x ∈ u.delivered := by
    intro taken t hRun hRunning hDue
    obtain ⟨more, u, hMore, hFold, hUp⟩ := (kempt_of_runs hCaptured hRun).flags.catchesUp hRunning
    have hReached := hRun.append_foldlM (fun a ha => hSequential a (hMore a ha)) hFold
    refine ⟨more, u, hMore, hFold, ?_⟩
    exact (hDue.foldlM hFold).delivered (kempt_of_runs hCaptured hReached).invariant (by rw [hUp.pc]; rfl) hUp.ch hUp.pending
  cases hUnsent : s.unsent x.backend with
  | nil =>
    refine hDeliver h hRunning ⟨hx, ?_⟩
    have hMem := hx.1
    rwa [hUnsent, append_nil] at hMem
  | cons e rest =>
    -- the event that is still to be broadcast is broadcast first
    have hStep : s.step (.broadcast x.backend) = some (s.broadcast x.backend e rest) := by
      rw [Subscription.step, hUnsent]
      rfl
    have hNil : rest = [] := by
      have hOne := (kempt_of_runs hCaptured h).last x.backend
      rw [hUnsent] at hOne
      exact eq_nil_of_length_eq_zero (Nat.le_zero.mp (Nat.le_of_succ_le_succ hOne))
    have hDue : (s.broadcast x.backend e rest).Due x := by
      refine ⟨hx.step hStep, ?_⟩
      have hMem := hx.1
      rw [hUnsent, hNil] at hMem
      have hBase : (s.broadcast x.backend e rest).base = s.base := rfl
      rw [hBase]
      simpa [broadcast] using hMem
    have hAllowed : s.Sequential (.broadcast x.backend) := trivial
    obtain ⟨more, u, hMore, hFold, hDelivered⟩ := hDeliver (h.snoc hAllowed hStep) hRunning hDue
    refine ⟨.broadcast x.backend :: more, u, forall_mem_cons.mpr ⟨rfl, hMore⟩, ?_, hDelivered⟩
    rw [foldlM_cons, hStep]
    exact hFold

/-- No gap and no duplicate: the events of a backend come in the order of their cluster times, each once and
none before an earlier one that is owed, and a subscription that starts from the position of any of them
delivers everything that had not been delivered by then. -/
theorem subscription_gapless (hCaptured : CapturedSource backends earlier unsent)
    (h : Runs step Sequential (start monitored backends after capacity earlier unsent) actions s) :
    (s.delivered.Pairwise fun x y => x.backend = y.backend → x.clusterTime ≤ y.clusterTime ∧ x.eventID ≠ y.eventID) ∧
      ∀ (i : Nat) (e : StoreChangeEvent) (p : Progress), s.sent[i]? = some (e, p) →
        (∀ x, s.Owed x → x.backend = e.backend → x.clusterTime < e.clusterTime → x ∈ s.delivered.take i) ∧
        ∀ x, s.Owed x → x ∉ s.delivered.take (i + 1) →
          ∀ (monitored' : Bool) (backends' : List Bytes) (capacity' : Nat) (earlier' unsent' : Bytes → List StoreChangeEvent),
            CapturedSource backends' earlier' unsent' → x ∈ earlier' x.backend ++ unsent' x.backend →
            ∀ (actions' : List SubscriptionAction) (s' : Subscription),
              Runs step Sequential (start monitored' backends' (some p) capacity' earlier' unsent') actions' s' →
              s'.pc ≠ .stopped →
              ∃ (more : List SubscriptionAction) (t : Subscription),
                (∀ a ∈ more, a.drives = true) ∧ more.foldlM step s' = some t ∧ x ∈ t.delivered := by
  have hTracked := (kempt_of_runs hCaptured h).invariant.tracked
  refine ⟨hTracked.apart, fun i e p hi => ⟨hTracked.before i e p hi, fun x hx hNot => ?_⟩⟩
  intro monitored' backends' capacity' earlier' unsent' hCaptured' hMem actions' s' h' hRunning
  refine delivers_owed hCaptured' h' hRunning ?_
  refine h'.invariant (I := fun t => t.Owed x) ⟨?_, ?_⟩ fun _ _ _ hOwed _ hStep => hOwed.step hStep
  · simpa [start, base] using hMem
  · rintro q ⟨⟩ pos hPos
    exact hTracked.saved i e p hi x hx hNot pos hPos

end Sequential

section Witness

def eventAt (t : UInt32) : StoreChangeEvent where
  eventID := uintToString t
  database := text "d"
  mgoColl := text "c"
  mgoDocID := text "k"
  opType := .delete
  fullDocument := none
  updateDesc := none
  clusterTime := ⟨t, 1⟩
  txnNumber := none
  timestamp := 0
  backend := text "m"

/-- The second event overflows the queue and is delivered by a replay. -/
def overflowAndReplay : List SubscriptionAction :=
  [.launch, .check true, .enterLive, .check true, .fence, .look, .pick, .settle, .check true,
    .write (eventAt 1), .broadcast (text "m"), .write (eventAt 2), .broadcast (text "m"), .receive,
    .check true, .drain, .beginRecovery, .floors, .openScan (text "m"), .merge, .read, .read, .read]

theorem subscription_gapless_overflow :
    ∃ s, Runs step Sequential (start true [text "m"] none 1 (fun _ => []) fun _ => []) overflowAndReplay s ∧
      s.delivered.map StoreChangeEvent.eventID = [text "1", text "2"] ∧
      (s.delivered.Pairwise fun x y => x.backend = y.backend → x.clusterTime ≤ y.clusterTime ∧ x.eventID ≠ y.eventID) := by
  obtain ⟨s, hRuns, hIds⟩ : ∃ s, Runs step Sequential (start true [text "m"] none 1 (fun _ => []) fun _ => []) overflowAndReplay s ∧
      s.delivered.map StoreChangeEvent.eventID = [text "1", text "2"] := Runs.exists_checked (by decide +kernel)
  have hCaptured : CapturedSource [text "m"] (fun _ => []) fun _ => [] :=
    ⟨nofun, nofun, fun _ => .nil, fun _ => List.nodup_nil, fun _ => Nat.zero_le _⟩
  exact ⟨s, hRuns, hIds, (subscription_gapless hCaptured hRuns).1⟩

end Witness

end Subscription

end Syntrix.Puller
