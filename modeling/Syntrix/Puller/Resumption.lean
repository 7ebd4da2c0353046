import Syntrix.Puller.Coalescing
import Syntrix.Puller.Fence
import Syntrix.Puller.Replay

/-! # Progress can be resumed

Whatever a subscription hands out stems from the history of the backend it names, and the markers it passes on
name positions of that history, as long as no replay rebuilds a pending insert. A rebuilt insert names no
backend, and the markers that follow it are rejected.
-/
namespace Syntrix.Puller

open Lib List Option Function

namespace Subscription

section Traced

variable (s : Subscription)

def Holds (e : StoreChangeEvent) : Prop := e ∈ s.history e.backend

def Resumes (p : Progress) : Prop := ∀ b pos, p b = some pos → ∃ e ∈ s.history b, e.position = pos

end Traced

def scans : Pc → Iterators
  | .opening _ iters _ => iters
  | .replaying iters => iters
  | _ => fun _ => []

structure Traced (s : Subscription) : Prop where
  source : ∀ b, ∀ e ∈ s.history b, e.backend = b ∧ b ∈ s.backends ∧ parseEventID e.eventID = some e.clusterTime
  queue : ∀ e ∈ s.sub.ch, s.Holds e
  position : s.Resumes s.sub.currentPos
  scans : ∀ b, ∀ e ∈ scans s.pc b, e ∈ s.history b
  sent : ∀ x ∈ s.sent, s.Holds x.1 ∧ s.Resumes x.2

section Steps

variable {s s' : Subscription} {e : StoreChangeEvent}

theorem Holds.mono (hGrows : ∀ b, s.history b ⊆ s'.history b) (h : s.Holds e) : s'.Holds e := hGrows _ h

theorem subset_of_history (hHistory : s'.history = s.history) (b : Bytes) : s.history b ⊆ s'.history b := by
  rw [hHistory]
  exact List.Subset.refl _

theorem Resumes.mono (hGrows : ∀ b, s.history b ⊆ s'.history b) {p : Progress} (h : s.Resumes p) : s'.Resumes p := by
  intro b pos hPos
  obtain ⟨e, he, hEq⟩ := h b pos hPos
  exact ⟨e, hGrows b he, hEq⟩

variable (h : s.Traced)

include h

theorem Traced.keep (hBackends : s'.backends = s.backends) (hHistory : s'.history = s.history)
    (hQueue : ∀ e ∈ s'.sub.ch, e ∈ s.sub.ch) (hPosition : s'.sub.currentPos = s.sub.currentPos) (hSent : s'.sent = s.sent)
    (hScans : ∀ b, ∀ e ∈ Subscription.scans s'.pc b, e ∈ s.history b) : s'.Traced := by
  have hGrows := subset_of_history hHistory
  refine ⟨?_, fun e he => (h.queue e (hQueue e he)).mono hGrows, ?_, fun b e he => hGrows b (hScans b e he), fun x hx => ?_⟩
  · rw [hHistory, hBackends]
    exact h.source
  · rw [hPosition]
    exact h.position.mono hGrows
  · rw [hSent] at hx
    exact ⟨(h.sent x hx).1.mono hGrows, (h.sent x hx).2.mono hGrows⟩

theorem Traced.same (hSame : Same s s') (hScans : ∀ b, ∀ e ∈ Subscription.scans s'.pc b, e ∈ s.history b) : s'.Traced :=
  h.keep hSame.backends hSame.kept.history (fun e he => by rwa [hSame.sub] at he) (by rw [hSame.sub]) hSame.sent hScans

theorem Traced.goto (hSame : Same s s') (hScans : Subscription.scans s'.pc = fun _ => []) : s'.Traced := by
  refine h.same hSame fun b e he => ?_
  rw [hScans] at he
  cases he

theorem Traced.deliver (he : s.Holds e) : (s.deliver e).Traced := by
  obtain ⟨hPc, hBackends, -, -, hCh, -⟩ := deliver_frame s e
  have hHistory := deliver_history s e
  have hGrows := subset_of_history hHistory
  have hNext : s.Resumes (update s.sub.currentPos e.backend (some e.position)) := by
    intro b pos hPos
    rcases eq_or_ne b e.backend with rfl | hb
    · rw [update_self] at hPos
      exact ⟨e, he, some.inj hPos⟩
    · rw [update_of_ne hb] at hPos
      exact h.position b pos hPos
  refine ⟨by rw [hHistory, hBackends]; exact h.source, fun x hx => ?_, ?_, ?_, fun x hx => ?_⟩
  · rw [hCh] at hx
    exact (h.queue x hx).mono hGrows
  · cases hSend : s.sub.shouldSend e with
    | true =>
      rw [deliver_sub hSend]
      exact hNext.mono hGrows
    | false =>
      rw [Subscription.deliver, hSend]
      exact h.position
  · rw [hPc, hHistory]
    exact h.scans
  · cases hSend : s.sub.shouldSend e with
    | true =>
      rw [deliver_sent hSend, mem_append, mem_singleton] at hx
      obtain hx | rfl := hx
      · exact ⟨(h.sent x hx).1.mono hGrows, (h.sent x hx).2.mono hGrows⟩
      · exact ⟨Holds.mono hGrows he, hNext.mono hGrows⟩
    | false =>
      rw [Subscription.deliver, hSend] at hx ⊢
      exact h.sent x hx

variable {rest : List StoreChangeEvent}

theorem Traced.take (hCh : s.sub.ch = e :: rest) : (s.take e rest).Traced := by
  have hRest : Traced { s with sub := { s.sub with ch := rest } } :=
    h.keep rfl rfl (fun x hx => by rw [hCh]; exact mem_cons_of_mem _ hx) rfl rfl h.scans
  exact hRest.deliver (h.queue e (by rw [hCh]; exact mem_cons_self))

theorem Traced.recover : s.recover.Traced := h.goto (recover_same s) rfl

theorem Traced.check (available : Bool) : (s.check available).Traced := by
  unfold Subscription.check
  split
  · split
    · exact h.goto (Same.pc s .waiting) rfl
    · refine h.goto (Same.trans (Same.trans ?_ (.emit _ .recovering .sourceUnavailable)) (.pc _ .waiting)) rfl
      exact ⟨rfl, rfl, rfl, rfl, rfl, rfl, rfl⟩
  · split
    · refine h.goto ((Same.emit s .replaying .none).trans (.pc _ _)) ?_
      split <;> rfl
    · exact h.goto (Same.pc s .entering) rfl

variable {iters : Iterators}

theorem Traced.advance (hPc : s.pc = .replaying iters) {head : Head} (hHead : leastHead (heads s.backends iters) = some head) :
    Traced { s with pc := .replaying (update iters head.backend head.rest) } ∧ s.Holds head.event := by
  have hIter := leastHead_heads hHead
  have hScans : ∀ b, ∀ x ∈ iters b, x ∈ s.history b := by
    have hScans := h.scans
    rwa [hPc] at hScans
  have hEvent := hScans head.backend head.event (by rw [hIter]; exact mem_cons_self)
  refine ⟨h.same (Same.pc s _) fun b x hx => ?_, ?_⟩
  · rcases eq_or_ne b head.backend with rfl | hb
    · rw [Subscription.scans, update_self] at hx
      exact hScans _ x (by rw [hIter]; exact mem_cons_of_mem _ hx)
    · rw [Subscription.scans, update_of_ne hb] at hx
      exact hScans b x hx
  · rw [Holds, (h.source _ _ hEvent).1]
    exact hEvent

theorem Traced.read (hPc : s.pc = .replaying iters) : (s.read iters).Traced := by
  unfold Subscription.read
  split
  · rename_i head hHead
    obtain ⟨hRest, hEvent⟩ := h.advance hPc hHead
    dsimp only
    split
    · exact hRest.deliver hEvent
    · exact hRest
  · split
    all_goals exact h.goto ⟨rfl, rfl, rfl, rfl, rfl, rfl, rfl⟩ rfl

omit h in
theorem replayScan_subset (s : Subscription) (floors : Option (Bytes → Option ClusterTime)) (b : Bytes) :
    s.replayScan floors b ⊆ s.history b := by
  intro x hx
  unfold Subscription.replayScan at hx
  dsimp only at hx
  split at hx
  · exact (mem_scanFrom.mp hx).1
  split at hx
  · cases hx
  · exact (mem_scanFrom.mp hx).1

variable {a : SubscriptionAction}

theorem Traced.loop (hStep : LoopTo s a s') : s'.Traced := by
  cases hStep with
  | launch hPc =>
    refine h.goto (Same.trans (Same.trans ?_ (.emit _ .starting .none)) (.pc _ .top)) rfl
    exact ⟨rfl, rfl, rfl, rfl, rfl, rfl, rfl⟩
  | check hPc available => exact h.check available
  | drained hPc hCh => exact h.goto (Same.pc s _) rfl
  | drain hPc hCh =>
    exact h.keep rfl rfl (fun x hx => by rw [hCh]; exact mem_cons_of_mem _ hx) rfl rfl h.scans
  | beginRecovery hPc => exact h.keep rfl rfl (fun _ hx => hx) rfl rfl (fun b x hx => by cases hx)
  | @openScan floors iters todo hPc b hTodo =>
    refine h.same (Same.pc s _) fun c x hx => ?_
    rcases eq_or_ne c b with rfl | hc
    · rw [Subscription.scans, update_self] at hx
      exact replayScan_subset s floors c hx
    rw [Subscription.scans, update_of_ne hc] at hx
    have hScans := h.scans
    rw [hPc] at hScans
    exact hScans c x hx
  | merge hPc =>
    refine h.same (Same.pc s _) ?_
    have hScans := h.scans
    rwa [hPc] at hScans
  | read hPc => exact h.read hPc
  | enterLive hPc =>
    refine h.goto ⟨rfl, rfl, rfl, rfl, rfl, rfl, rfl⟩ ?_
    split <;> rfl
  | pick hPc hCh | receive hPc hCh hPending => exact (h.take hCh).goto (Same.pc _ _) rfl
  | abandon hPc hPending => exact h.recover
  | announce hPc hOpen =>
    refine h.goto (Same.trans (Same.trans ?_ (.emit _ .admitted .none)) (.pc _ .selecting)) rfl
    exact ⟨rfl, rfl, rfl, rfl, rfl, rfl, rfl⟩
  | wake hPc hRecovery =>
    have hWoken : Traced { s with sub := { s.sub with recovery := false } } :=
      h.keep rfl rfl (fun _ hx => hx) rfl rfl h.scans
    exact hWoken.recover
  | overflow hPc hCh hPending => exact (h.take hCh).recover
  | _ => exact h.goto ⟨rfl, rfl, rfl, rfl, rfl, rfl, rfl⟩ rfl

theorem Traced.written (hBackend : e.backend ∈ s.backends)
    (hName : parseEventID e.eventID = some e.clusterTime) : (s.written e).Traced := by
  have hGrows : ∀ b, s.history b ⊆ (s.written e).history b := fun b _ hx => history_subset_written hx
  refine ⟨fun b x hx => ?_, fun x hx => (h.queue x hx).mono hGrows, h.position.mono hGrows,
    fun b x hx => hGrows b (h.scans b x hx), fun x hx => ⟨(h.sent x hx).1.mono hGrows, (h.sent x hx).2.mono hGrows⟩⟩
  rw [written_history] at hx
  rcases eq_or_ne b e.backend with rfl | hb
  · rw [update_self, mem_append, mem_singleton] at hx
    obtain hx | rfl := hx
    · exact h.source _ x hx
    · exact ⟨rfl, hBackend, hName⟩
  · rw [update_of_ne hb] at hx
    exact h.source b x hx

theorem Traced.broadcast {b : Bytes} (hUnsent : s.unsent b = e :: rest) : (s.broadcast b e rest).Traced := by
  have hKept := broadcast_kept hUnsent
  have hEvent : s.Holds e := by
    have hMem : e ∈ s.history b := by
      rw [history, hUnsent]
      exact mem_append_right _ mem_cons_self
    rw [Holds, (h.source b e hMem).1]
    exact hMem
  refine ⟨by rw [hKept.history]; exact h.source, fun x hx => ?_, ?_, ?_, ?_⟩
  · rw [Holds, hKept.history]
    have hQueue : x ∈ s.sub.ch ∨ x = e := by
      have hSub : (s.broadcast b e rest).sub = s.sub.enqueue e := rfl
      rw [hSub] at hx
      obtain ⟨-, hEq⟩ | ⟨-, hEq | hEq⟩ := enqueue_cases s.sub e
      · rw [hEq] at hx
        exact .inl hx
      · rw [hEq] at hx
        exact (mem_append.mp hx).imp_right mem_singleton.mp
      · rw [hEq] at hx
        exact .inl hx
    obtain hx | rfl := hQueue
    · exact h.queue x hx
    · exact hEvent
  · rw [Resumes, hKept.history, hKept.currentPos]
    exact h.position
  · rw [hKept.history]
    exact h.scans
  · simp only [hKept.sent, Holds, Resumes, hKept.history]
    exact h.sent

/-- Capture writes events of configured backends, with IDs that name their cluster times. -/
def CapturesNamed (s : Subscription) : SubscriptionAction → Prop
  | .write e => e.backend ∈ s.backends ∧ parseEventID e.eventID = some e.clusterTime
  | _ => True

theorem Traced.step (hAllowed : s.CapturesNamed a) (hStep : s.step a = some s') : s'.Traced := by
  obtain ⟨e, rfl, rfl⟩ | ⟨b, e, rest, -, hUnsent, rfl⟩ | ⟨-, rfl⟩ | hLoop := step_cases hStep
  · exact h.written hAllowed.1 hAllowed.2
  · exact h.broadcast hUnsent
  · exact h.goto (Same.pc s _) rfl
  · exact h.loop hLoop

omit h

theorem step_history (hStep : s.step a = some s') (b : Bytes) : s.history b ⊆ s'.history b := by
  obtain ⟨e, -, rfl⟩ | ⟨b', e, rest, -, hUnsent, rfl⟩ | ⟨-, rfl⟩ | hLoop := step_cases hStep
  · exact fun _ hx => history_subset_written hx
  · exact subset_of_history (broadcast_kept hUnsent).history b
  · exact List.Subset.refl _
  have hSource := hLoop.source
  rw [history, history, hSource.earlier, hSource.broadcasts, hSource.unsent]
  exact List.Subset.refl _

theorem LoopTo.backends (h : LoopTo s a s') : s'.backends = s.backends := by
  have hEmit : ∀ (t : Subscription) (state : AdmissionState) (reason : AdmissionReason), (t.emit state reason).backends = t.backends :=
    fun t state reason => (Same.emit t state reason).backends
  have hDeliver : ∀ (t : Subscription) (e : StoreChangeEvent), (t.deliver e).backends = t.backends :=
    fun t e => (deliver_frame t e).2.1
  cases h with
  | launch hPc | announce hPc hOpen => exact hEmit _ _ _
  | check hPc available =>
    unfold Subscription.check
    split
    · split
      · rfl
      · exact hEmit _ _ _
    · split
      · exact hEmit _ _ _
      · rfl
  | read hPc =>
    unfold Subscription.read
    split
    · dsimp only
      split
      · exact hDeliver _ _
      · rfl
    · split <;> rfl
  | pick hPc hCh | receive hPc hCh hPending => exact hDeliver _ _
  | abandon hPc hPending => exact (recover_same s).backends
  | wake hPc hRecovery => exact (recover_same _).backends
  | overflow hPc hCh hPending => exact (recover_same _).backends.trans (hDeliver _ _)
  | _ => rfl

theorem step_backends (hStep : s.step a = some s') : s'.backends = s.backends := by
  obtain ⟨e, -, rfl⟩ | ⟨b, e, rest, -, -, rfl⟩ | ⟨-, rfl⟩ | hLoop := step_cases hStep
  case inr.inr.inr => exact hLoop.backends
  all_goals rfl

end Steps

end Subscription

namespace CoalescedSubscription

structure Traced (s : CoalescedSubscription) : Prop where
  loop : s.loop.Traced
  pending : ∀ (key : Bytes) (e : StoreChangeEvent), s.coalescer[key]? = some e → s.loop.Holds e
  batch : ∀ e ∈ s.batch, s.loop.Holds e
  markers : ∀ p ∈ s.markers, s.loop.Resumes p

/-- A read does not rebuild a pending insert, and capture writes events of configured backends. -/
def Plain (s : CoalescedSubscription) : CoalescedAction → Prop
  | .loop .read => ∀ e ∈ s.incoming, ¬ s.coalescer.Rebuilds e
  | .loop a => s.loop.CapturesNamed a
  | .flush _ => True

section Steps

variable {s s' : CoalescedSubscription}

variable {a : CoalescedAction}

theorem step_cases (h : s.step a = some s') :
    (∃ b, a = .loop b ∧ s.uncoalesced b = some s') ∨
      (∃ iters, a = .loop .read ∧ s.coalesceOnCatchUp = true ∧ s.loop.pc = .replaying iters ∧ s.read iters = some s') ∨
      ∃ iters keys, a = .flush keys ∧ s.flush iters keys = some s' := by
  cases a with
  | flush keys =>
    simp only [step] at h
    split at h
    · exact .inr (.inr ⟨_, keys, rfl, h⟩)
    · cases h
  | loop b =>
    cases b with
    | read =>
      simp only [step] at h
      split at h
      · rename_i hCoalesce hPc
        exact .inr (.inl ⟨_, rfl, hCoalesce, hPc, h⟩)
      · exact .inl ⟨.read, rfl, h⟩
    | _ => exact .inl ⟨_, rfl, h⟩

variable {iters : Iterators}

theorem read_cases (h : s.read iters = some s') :
    (∃ e rest, s.batch = e :: rest ∧ s' = { s with loop := s.loop.deliver e, batch := rest }) ∨
      (∃ head, s.batch = [] ∧ s.count < coalescingBatch ∧ leastHead (heads s.loop.backends iters) = some head ∧
        s.loop.sub.replayAdmitted head.event = true ∧
        s' = { s with
          loop := { s.loop with pc := .replaying (update iters head.backend head.rest) }
          coalescer := s.coalescer.add head.event
          count := s.count + 1 }) ∨
      (∃ head, leastHead (heads s.loop.backends iters) = some head ∧
        s' = { s with loop := { s.loop with pc := .replaying (update iters head.backend head.rest) } }) ∨
      s' = { s with loop := s.loop.read iters } := by
  unfold read at h
  split at h
  · rename_i e rest hBatch
    exact .inl ⟨e, rest, hBatch, (some.inj h).symm⟩
  rename_i hBatch
  obtain ⟨hCount, h⟩ := ite_none_right_eq_some.mp h
  split at h
  · rename_i head hHead
    split at h
    · rename_i hAdmitted
      exact .inr (.inl ⟨head, hBatch, hCount, hHead, hAdmitted, (some.inj h).symm⟩)
    · exact .inr (.inr (.inl ⟨head, hHead, (some.inj h).symm⟩))
  · split at h
    · exact .inr (.inr (.inr (some.inj h).symm))
    · cases h

theorem incoming_eq (hCoalesce : s.coalesceOnCatchUp = true) (hPc : s.loop.pc = .replaying iters) (hBatch : s.batch = [])
    (hCount : s.count < coalescingBatch) {head : Head} (hHead : leastHead (heads s.loop.backends iters) = some head)
    (hAdmitted : s.loop.sub.replayAdmitted head.event = true) : s.incoming = some head.event := by
  simp only [incoming, hCoalesce, hPc, hBatch, hCount, hHead, hAdmitted, and_self, if_true, map_some,
    filter_some]

theorem Traced.grow (h : s.Traced) {loop : Subscription} (hLoop : loop.Traced) (hGrows : ∀ b, s.loop.history b ⊆ loop.history b) :
    Traced { s with loop } :=
  ⟨hLoop, fun key x hx => (h.pending key x hx).mono hGrows, fun x hx => (h.batch x hx).mono hGrows,
    fun p hp => (h.markers p hp).mono hGrows⟩

theorem Traced.uncoalesced (h : s.Traced) {a : SubscriptionAction} (hAllowed : s.loop.CapturesNamed a)
    (hStep : s.uncoalesced a = some s') : s'.Traced := by
  obtain ⟨loop, hLoop, rfl⟩ := map_eq_some_iff.mp hStep
  have hGrows := Subscription.step_history hLoop
  have hTraced := h.loop.step hAllowed hLoop
  have hPassed : ∀ p ∈ s.loop.passed a, p = s.loop.sub.currentPos := by
    intro p hp
    unfold Subscription.passed at hp
    split at hp
    · split at hp
      · split at hp
        · cases hp
        · exact mem_singleton.mp hp
      · cases hp
    · split at hp
      · exact mem_singleton.mp hp
      · cases hp
    · cases hp
  have hMarkers : ∀ p ∈ s.markers ++ s.loop.passed a, loop.Resumes p := by
    intro p hp
    obtain hp | hp := mem_append.mp hp
    · exact (h.markers p hp).mono hGrows
    · rw [hPassed p hp]
      exact h.loop.position.mono hGrows
  split
  · exact ⟨hTraced, fun key e he => (by cases Std.TreeMap.getElem?_emptyc.symm.trans he), fun e he => (by cases he), hMarkers⟩
  · exact { h.grow hTraced hGrows with markers := hMarkers }

theorem Traced.read (h : s.Traced) (hCoalesce : s.coalesceOnCatchUp = true) (hPc : s.loop.pc = .replaying iters)
    (hPlain : ∀ e ∈ s.incoming, ¬ s.coalescer.Rebuilds e) (hStep : s.read iters = some s') : s'.Traced := by
  obtain ⟨e, rest, hBatch, rfl⟩ | ⟨head, hBatch, hCount, hHead, hAdmitted, rfl⟩ | ⟨head, hHead, rfl⟩ | rfl := read_cases hStep
  · have hGrows := Subscription.subset_of_history (Subscription.deliver_history s.loop e)
    have hLoop := h.grow (h.loop.deliver (h.batch e (by rw [hBatch]; exact mem_cons_self))) hGrows
    exact { hLoop with batch := fun x hx => hLoop.batch x (by rw [hBatch]; exact mem_cons_of_mem _ hx) }
  · obtain ⟨hLoop, hEvent⟩ := h.loop.advance hPc hHead
    refine ⟨hLoop, fun key x hx => ?_, h.batch, h.markers⟩
    obtain rfl | hPending | ⟨-, hRebuilds⟩ := Coalescer.add_pending hx
    · exact hEvent
    · exact h.pending key x hPending
    · exact absurd hRebuilds (hPlain _ (incoming_eq hCoalesce hPc hBatch hCount hHead hAdmitted))
  · exact { h with loop := (h.loop.advance hPc hHead).1 }
  · exact h.grow (h.loop.read hPc) (Subscription.step_history (Subscription.LoopTo.read hPc).step)

theorem Traced.flush (h : s.Traced) {keys : List Bytes} (hStep : s.flush iters keys = some s') : s'.Traced := by
  unfold CoalescedSubscription.flush at hStep
  split at hStep
  · cases hStep
    refine { h with
      pending := fun key e he => (by cases Std.TreeMap.getElem?_emptyc.symm.trans he), batch := fun e he => ?_ }
    obtain ⟨key, -, hKey⟩ := mem_filterMap.mp he
    exact h.pending key e hKey
  · cases hStep

theorem Traced.step (h : s.Traced) (hPlain : s.Plain a) (hStep : s.step a = some s') : s'.Traced := by
  obtain ⟨b, rfl, hNext⟩ | ⟨iters, rfl, hCoalesce, hPc, hNext⟩ | ⟨iters, keys, rfl, hNext⟩ := step_cases hStep
  · refine h.uncoalesced ?_ hNext
    cases b with
    | read => trivial
    | _ => exact hPlain
  · exact h.read hCoalesce hPc hPlain hNext
  · exact h.flush hNext

theorem step_backends (hStep : s.step a = some s') : s'.loop.backends = s.loop.backends := by
  obtain ⟨b, -, hNext⟩ | ⟨iters, -, -, hPc, hNext⟩ | ⟨iters, keys, -, hNext⟩ := step_cases hStep
  · obtain ⟨loop, hLoop, rfl⟩ := map_eq_some_iff.mp hNext
    split <;> exact Subscription.step_backends hLoop
  · obtain ⟨e, rest, -, rfl⟩ | ⟨head, -, -, -, -, rfl⟩ | ⟨head, -, rfl⟩ | rfl := read_cases hNext
    · exact (Subscription.deliver_frame s.loop e).2.1
    · rfl
    · rfl
    · exact (Subscription.LoopTo.read hPc).backends
  · unfold flush at hNext
    split at hNext
    · cases hNext
      rfl
    · cases hNext

theorem read_rebuilds {e : StoreChangeEvent} (he : s.incoming = some e) (hRebuilds : s.coalescer.Rebuilds e)
    (hStep : s.step (.loop .read) = some s') : ∃ x, s'.coalescer[docKey e.mgoColl e.mgoDocID]? = some x ∧ x.backend = [] := by
  unfold incoming at he
  simp only [step] at hStep
  split at he
  · rename_i iters hCoalesce hPc
    rw [hCoalesce, hPc] at hStep
    obtain ⟨hReads, he⟩ := ite_none_right_eq_some.mp he
    obtain ⟨hMap, hAdmitted⟩ := filter_eq_some_iff.mp he
    obtain ⟨head, hHead, rfl⟩ := map_eq_some_iff.mp hMap
    simp only [CoalescedSubscription.read, hReads.1, hReads.2, hHead, hAdmitted, if_true] at hStep
    cases hStep
    exact ⟨mergedInsert head.event, Coalescer.add_rebuilds hRebuilds, rfl⟩
  · cases he

end Steps

section Runs

/-- The markers handed to `Deliver`, `Ready` and `Maintain`. -/
def Passes (s : CoalescedSubscription) (p : Progress) : Prop := p ∈ s.markers ∨ ∃ e, (e, p) ∈ s.loop.sent

/-- What a subscription may start from: events of configured backends whose IDs name their cluster times,
and a marker of positions among them. -/
structure Source (backends : List Bytes) (after : Option Progress) (history : Bytes → List StoreChangeEvent) : Prop where
  events : ∀ b, ∀ e ∈ history b, e.backend = b ∧ b ∈ backends ∧ parseEventID e.eventID = some e.clusterTime
  after : ∀ p ∈ after, ∀ b pos, p b = some pos → ∃ e ∈ history b, e.position = pos

theorem start_traced (coalesceOnCatchUp monitored : Bool) {backends : List Bytes} {after : Option Progress} (capacity : Nat)
    {earlier unsent : Bytes → List StoreChangeEvent} (hSource : Source backends after fun b => earlier b ++ unsent b) :
    (start coalesceOnCatchUp monitored backends after capacity earlier unsent).Traced := by
  have hHistory : (start coalesceOnCatchUp monitored backends after capacity earlier unsent).loop.history =
      fun b => earlier b ++ unsent b := by
    funext b
    simp [start, Subscription.start, Subscription.history]
  refine ⟨⟨by rw [hHistory]; exact hSource.events, ?_, ?_, ?_, ?_⟩, fun key e he => ?_, ?_, ?_⟩
  · rintro _ ⟨⟩
  · rw [Subscription.Resumes, hHistory]
    intro b pos hPos
    cases after with
    | none => cases hPos
    | some p => exact hSource.after p rfl b pos hPos
  · rintro _ _ ⟨⟩
  · rintro _ ⟨⟩
  · cases Std.TreeMap.getElem?_emptyc.symm.trans he
  · rintro _ ⟨⟩
  · rintro _ ⟨⟩

def Marks (marker : ProgressMarker) (p : Progress) : Prop := ∀ b : Bytes, marker.positions[b]? = (p b).map Position.eventID

/-- Every configured backend has a buffer that retains its history, of the lineage the marker knows. -/
structure Retained (s : CoalescedSubscription) (buffers : List (Bytes × Buffer)) (marker : ProgressMarker) : Prop where
  configured : ∀ b ∈ s.loop.backends, (buffers.lookup b).isSome
  retains : ∀ x ∈ buffers, x.2.Retains (s.loop.history x.1)
  lineages : ∀ x ∈ buffers, ∀ lineage ∈ marker.lineages[x.1]?, lineage = x.2.lineage

variable {s : CoalescedSubscription}

variable {p : Progress}

theorem Traced.resumes (h : s.Traced) (hPasses : s.Passes p) : s.loop.Resumes p := by
  obtain hp | ⟨e, hp⟩ := hPasses
  · exact h.markers p hp
  · exact (h.loop.sent _ hp).2

theorem Traced.accepts (h : s.Traced) (hResumes : s.loop.Resumes p) {buffers : List (Bytes × Buffer)}
    {marker : ProgressMarker} {firstBroadcast : Option (KeyValue Byte ClusterTime)} (hMarks : Marks marker p)
    (hRetained : s.Retained buffers marker)
    (hFloors : ∀ floors ∈ firstBroadcast, ∀ b t, floors[b]? = some t → b ∈ s.loop.backends) :
    ∃ opened, replayRetained buffers marker firstBroadcast = .ok opened := by
  have hPosition : ∀ (b id : Bytes), marker.positions[b]? = some id → ∃ e ∈ s.loop.history b, e.eventID = id := by
    intro b id hId
    rw [hMarks b] at hId
    obtain ⟨pos, hPos, rfl⟩ := map_eq_some_iff.mp hId
    obtain ⟨e, he, rfl⟩ := hResumes b pos hPos
    exact ⟨e, he, rfl⟩
  refine replayRetained_accepts hRetained.retains (fun x hx => ⟨?_, hRetained.lineages x hx⟩) ?_ ?_
  · intro id hId
    obtain ⟨e, he, rfl⟩ := hPosition x.1 id hId
    exact ⟨e, he, rfl, (h.loop.source x.1 e he).2.2⟩
  · intro b id hId
    obtain ⟨e, he, -⟩ := hPosition b id hId
    exact hRetained.configured b (h.loop.source b e he).2.1
  · exact fun floors hSome b t ht => hRetained.configured b (hFloors floors hSome b t ht)

/-- In a run that rebuilds no insert, every marker names configured backends and events they hold, a retained
replay accepts it, and every event names the backend it came from. A read that rebuilds one loses the name. -/
theorem progress_resumable {coalesceOnCatchUp monitored : Bool} {backends : List Bytes} {after : Option Progress} {capacity : Nat}
    {earlier unsent : Bytes → List StoreChangeEvent} {actions : List CoalescedAction} {s : CoalescedSubscription}
    (hSource : Source backends after fun b => earlier b ++ unsent b)
    (hRun : Runs step Plain (start coalesceOnCatchUp monitored backends after capacity earlier unsent) actions s) :
    (∀ p, s.Passes p →
      (∀ b pos, p b = some pos → b ∈ backends ∧ ∃ e ∈ s.loop.history b, e.eventID = pos.eventID) ∧
      ∀ buffers marker firstBroadcast, Marks marker p → s.Retained buffers marker →
        (∀ floors ∈ firstBroadcast, ∀ (b : Bytes) (t : ClusterTime), floors[b]? = some t → b ∈ backends) →
        ∃ opened, replayRetained buffers marker firstBroadcast = .ok opened) ∧
    (∀ e p, (e, p) ∈ s.loop.sent → e.backend ∈ backends ∧ e ∈ s.loop.history e.backend) ∧
    ∀ e ∈ s.incoming, s.coalescer.Rebuilds e → ∀ s', s.step (.loop .read) = some s' →
      ∃ x, s'.coalescer[docKey e.mgoColl e.mgoDocID]? = some x ∧ x.backend = [] := by
  obtain ⟨hTraced, hBackends⟩ : s.Traced ∧ s.loop.backends = backends := by
    refine hRun.invariant (I := fun s => s.Traced ∧ s.loop.backends = backends) ⟨start_traced _ _ _ hSource, rfl⟩ ?_
    intro t a t' hInv hPlain hStep
    exact ⟨hInv.1.step hPlain hStep, (step_backends hStep).trans hInv.2⟩
  refine ⟨fun p hp => ?_, fun e p he => ?_, fun e he hRebuilds s' hStep => read_rebuilds he hRebuilds hStep⟩
  · have hResumes := hTraced.resumes hp
    refine ⟨fun b pos hPos => ?_, fun buffers marker firstBroadcast hMarks hRetained hFloors => ?_⟩
    · obtain ⟨e, he, rfl⟩ := hResumes b pos hPos
      exact ⟨hBackends ▸ (hTraced.loop.source b e he).2.1, e, he, rfl⟩
    · exact hTraced.accepts hResumes hMarks hRetained (by rw [hBackends]; exact hFloors)
  · have hHolds := (hTraced.loop.sent _ he).1
    exact ⟨hBackends ▸ (hTraced.loop.source _ e hHolds).2.1, hHolds⟩

def documentEvent (t : UInt32) (opType : StoreOperationType) : StoreChangeEvent where
  eventID := uintToString t ++ text "-1-a"
  database := text "d"
  mgoColl := text "c"
  mgoDocID := text "k"
  opType := opType
  fullDocument := none
  updateDesc := none
  clusterTime := ⟨t, 1⟩
  txnNumber := none
  timestamp := 0
  backend := text "m"

def eventsOf (events : List StoreChangeEvent) (b : Bytes) : List StoreChangeEvent := if b = text "m" then events else []

theorem eventsOf_source {events : List StoreChangeEvent}
    (h : ∀ e ∈ events, e.backend = text "m" ∧ parseEventID e.eventID = some e.clusterTime) :
    Source [text "m"] (some fun _ => none) fun b => eventsOf events b ++ [] := by
  refine ⟨fun b e he => ?_, ?_⟩
  · rw [append_nil, eventsOf] at he
    split at he
    · rename_i hb
      rw [hb]
      exact ⟨(h e he).1, mem_singleton_self _, (h e he).2⟩
    · cases he
  · rintro p ⟨⟩ b pos ⟨⟩

/-- A replay reads the two events of a backend into one batch and delivers what is left of it. -/
def replayTwo : List CoalescedAction :=
  [.loop .launch, .loop (.check true), .loop .floors, .loop (.openScan (text "m")), .loop .merge, .loop .read, .loop .read,
    .flush [docKey (text "c") (text "k")], .loop .read, .loop .read]

def replayed (first second : StoreOperationType) : CoalescedSubscription :=
  start true false [text "m"] (some fun _ => none) 1 (eventsOf [documentEvent 1 first, documentEvent 2 second]) fun _ => []

instance (s : CoalescedSubscription) (a : CoalescedAction) : Decidable (s.Plain a) :=
  match a with
  | .loop .read => inferInstanceAs (Decidable (∀ e ∈ s.incoming, ¬ s.coalescer.Rebuilds e))
  | .loop (.write _) => inferInstanceAs (Decidable (_ ∧ _))
  | .loop (.broadcast _) | .loop .launch | .loop (.check _) | .loop (.tick _) | .loop .drain | .loop .beginRecovery | .loop .floors
  | .loop (.openScan _) | .loop .merge | .loop .enterLive | .loop .fence | .loop .look | .loop .pick | .loop .settle
  | .loop .wake | .loop .receive | .loop .stop | .flush _ => .isTrue trivial

theorem progress_resumable_update : ∃ s e p, Runs step Plain (replayed .update .update) replayTwo s ∧ (e, p) ∈ s.loop.sent ∧
    e.eventID = text "2-1-a" ∧ e.backend ∈ [text "m"] ∧ e ∈ s.loop.history e.backend := by
  obtain ⟨s, hRun, hIds⟩ : ∃ s, Runs step Plain (replayed .update .update) replayTwo s ∧
      s.loop.delivered.map StoreChangeEvent.eventID = [text "2-1-a"] := Runs.exists_checked (by decide +kernel)
  have hSource := @eventsOf_source [documentEvent 1 .update, documentEvent 2 .update] (by decide +kernel)
  obtain ⟨e, he, hId⟩ : ∃ e ∈ s.loop.delivered, e.eventID = text "2-1-a" := by
    rw [← List.mem_map, hIds]
    exact List.mem_singleton_self _
  obtain ⟨⟨_, p⟩, hSent, rfl⟩ := List.mem_map.mp he
  have hEvent := (progress_resumable hSource hRun).2.1 _ p hSent
  exact ⟨s, _, p, hRun, hSent, hId, hEvent.1, hEvent.2⟩

/-- An insert and an update of a document are delivered as an insert of no backend, with a marker that a
retained replay rejects. -/
theorem rebuilt_insert_rejected : ∃ s e p, Runs step (fun _ _ => True) (replayed .insert .update) replayTwo s ∧
    (e, p) ∈ s.loop.sent ∧ e.backend = [] ∧ ∀ buffers marker firstBroadcast, (∀ x ∈ buffers, x.1 = text "m") → Marks marker p →
      ∃ name, replayRetained buffers marker firstBroadcast = .error (.replayBackend name) := by
  obtain ⟨s, hRun, x, hMem, hBackend, hSome⟩ : ∃ s, Runs step (fun _ _ => True) (replayed .insert .update) replayTwo s ∧
      ∃ x ∈ s.loop.sent, x.1.backend = [] ∧ (x.2 []).isSome := Runs.exists_of_foldlM (by decide +kernel)
  obtain ⟨pos, hPos⟩ := Option.isSome_iff_exists.mp hSome
  refine ⟨s, x.1, x.2, hRun, hMem, hBackend, fun buffers marker firstBroadcast hNames hMarks => ?_⟩
  have hPosition : marker.positions[([] : Bytes)]? = some pos.eventID := by
    rw [hMarks, hPos]
    rfl
  refine replayRetained_rejects firstBroadcast hPosition (List.lookup_eq_none_iff.mpr fun y hy => ?_)
  rw [hNames y hy]
  rfl

end Runs

end CoalescedSubscription

end Syntrix.Puller
