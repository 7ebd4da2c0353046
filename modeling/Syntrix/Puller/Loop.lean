import Syntrix.Puller.Phases

/-! # The loop of a subscription

Delivery from the live queue, the drain and the replay each keep what a subscription has to keep. A
replay begins with the group of the position, so that it meets every event that is missing.
-/
namespace Syntrix.Puller

open Lib List Option Function

namespace Subscription

section Loop

variable {s : Subscription} {taken dropped : Bytes → List StoreChangeEvent}

variable {rest : List StoreChangeEvent} {e : StoreChangeEvent}

theorem Split.tail (hSplit : s.Split taken dropped) (hCh : s.sub.ch = e :: rest) :
    Split { s with sub := { s.sub with ch := rest } } (update taken e.backend (taken e.backend ++ [e])) dropped := by
  refine ⟨fun b => ?_, hSplit.pending⟩
  refine (hSplit.parts b).trans ?_
  rw [hCh]
  rcases eq_or_ne b e.backend with rfl | hb
  · simp
  · simp [hb, Ne.symm hb]

theorem Invariant.drain (h : s.Invariant)
    (hCh : s.sub.ch = e :: rest) (hPc : s.pc = .draining) : Invariant { s with sub := { s.sub with ch := rest } } := by
  obtain ⟨taken, dropped, hSplit, -⟩ := h.phase
  have hKept : Kept s { s with sub := { s.sub with ch := rest } } := ⟨rfl, rfl, rfl, rfl, rfl, rfl, rfl⟩
  refine ⟨hKept.ordered rfl h.ordered, hKept.tracked h.tracked,
    { h.grouped with }, _, _, hSplit.tail hCh, ?_⟩
  rw [show Subscription.pc { s with sub := { s.sub with ch := rest } } = .draining from hPc]
  trivial

theorem Invariant.beginRecovery (h : s.Invariant) (hCh : s.sub.ch = []) :
    Invariant { s with sub := s.sub.beginRecovery, pc := .snapshot } := by
  obtain ⟨taken, dropped, hSplit, -⟩ := h.phase
  have hKept : Kept s { s with sub := s.sub.beginRecovery, pc := .snapshot } := ⟨rfl, rfl, rfl, rfl, rfl, rfl, rfl⟩
  refine ⟨hKept.ordered rfl h.ordered, hKept.tracked h.tracked,
    { h.grouped with }, fun b => taken b ++ dropped b,
    fun _ => [], ⟨fun b => ?_, fun _ _ => rfl⟩, trivial⟩
  refine (hSplit.parts b).trans ?_
  simp [Subscriber.beginRecovery, hCh]

theorem take_before (h : s.Ordered) (hSplit : s.Split taken dropped) (hSettled : s.Settled taken) (hCh : s.sub.ch = e :: rest) :
    e ∈ s.history e.backend ∧ ∀ x, s.Owed x → x.backend = e.backend → x.clusterTime < e.clusterTime → x ∈ s.delivered := by
  have hParts := hSplit.parts e.backend
  rw [hCh, filter_cons_of_pos (by simp)] at hParts
  have hSorted : (s.base e.backend ++ s.broadcasts e.backend ++ s.unsent e.backend).Pairwise
      fun x y => x.clusterTime ≤ y.clusterTime := by
    refine List.Pairwise.sublist ?_ (h.sorted e.backend)
    unfold base
    split
    · exact Sublist.refl _
    · simp [history]
  refine ⟨?_, fun x hx hBackend hLt => ?_⟩
  · have hMem : e ∈ s.base e.backend ++ s.broadcasts e.backend := by
      rw [hParts]
      simp
    unfold base at hMem
    simp only [history, mem_append]
    split at hMem
    · exact .inl (mem_append.mp hMem)
    · exact .inl (.inr hMem)
  · have hMem := hx.1
    rw [hBackend, hParts] at hMem
    rw [hParts] at hSorted
    simp only [append_assoc, cons_append] at hMem hSorted
    obtain hTaken | hMem := mem_append.mp hMem
    · exact hSettled x hx (hBackend ▸ hTaken)
    obtain rfl | hMem := mem_cons.mp hMem
    · exact absurd hLt (lt_irrefl _)
    · have hLe := (pairwise_cons.mp (pairwise_append.mp hSorted).2.1).1 x hMem
      exact absurd hLe (not_le.mpr hLt)

theorem deliver_frame (s : Subscription) (e : StoreChangeEvent) :
    (s.deliver e).pc = s.pc ∧ (s.deliver e).backends = s.backends ∧ (s.deliver e).broadcasts = s.broadcasts ∧
      (s.deliver e).base = s.base ∧ (s.deliver e).sub.ch = s.sub.ch ∧
      (s.deliver e).sub.recoveryPending = s.sub.recoveryPending ∧ (s.deliver e).sub.startFromNow = s.sub.startFromNow ∧
      (s.deliver e).sub.admissionGroups = s.sub.admissionGroups := by
  unfold deliver
  split <;> exact ⟨rfl, rfl, rfl, rfl, rfl, rfl, rfl, rfl⟩

theorem Ordered.deliver (h : s.Ordered) (e : StoreChangeEvent) : (s.deliver e).Ordered := by
  obtain ⟨-, hBackends, -⟩ := deliver_frame s e
  refine ⟨?_, ?_, ?_, ?_⟩
  · rw [deliver_history]
    exact h.backend
  · rw [deliver_history, hBackends]
    exact h.configured
  · rw [deliver_history]
    exact h.sorted
  · rw [deliver_history]
    exact h.distinct

theorem Grouped.deliver (h : s.Grouped) (e : StoreChangeEvent) : (s.deliver e).Grouped := by
  obtain ⟨-, -, hBroadcasts, -, -, -, hMode, hGroups⟩ := deliver_frame s e
  refine ⟨?_, ?_, ?_, ?_, ?_⟩
  · rw [hMode, deliver_after]
    exact h.mode
  · rw [hMode, hGroups]
    exact h.idle
  · rw [hMode, hGroups, hBroadcasts]
    exact h.empty
  · rw [hGroups, hBroadcasts]
    exact h.first
  · rw [hGroups, hBroadcasts]
    exact h.ids

theorem Split.deliver (h : s.Split taken dropped) (e : StoreChangeEvent) : (s.deliver e).Split taken dropped := by
  obtain ⟨-, -, hBroadcasts, hBase, hCh, hPending, -⟩ := deliver_frame s e
  refine ⟨?_, ?_⟩
  · rw [hBroadcasts, hBase, hCh]
    exact h.parts
  · rw [hPending]
    exact h.pending

structure Live (s : Subscription) : Prop where
  ordered : s.Ordered
  tracked : s.Tracked
  grouped : s.Grouped
  settled : ∃ taken dropped, s.Split taken dropped ∧ s.Settled taken

def isLive : Pc → Bool
  | .entering | .gate | .fencing | .admitting | .picking | .checking | .announcing | .selecting => true
  | _ => false

theorem phase_iff_settled (h : isLive s.pc = true) : s.Phase taken ↔ s.Settled taken := by
  unfold Phase
  cases hPc : s.pc <;> first | rfl | (rw [hPc] at h; cases h)

theorem Invariant.live (h : s.Invariant) (hLive : isLive s.pc = true) : s.Live := by
  obtain ⟨taken, dropped, hSplit, hPhase⟩ := h.phase
  exact ⟨h.ordered, h.tracked, h.grouped, taken, dropped, hSplit, (phase_iff_settled hLive).mp hPhase⟩

theorem Live.invariant (h : s.Live) (hPhase : ∀ taken, s.Settled taken → s.Phase taken) : s.Invariant := by
  obtain ⟨taken, dropped, hSplit, hSettled⟩ := h.settled
  exact ⟨h.ordered, h.tracked, h.grouped, taken, dropped, hSplit, hPhase taken hSettled⟩

theorem Live.same {s' : Subscription} (h : s.Live) (hSame : Same s s') : s'.Live := by
  obtain ⟨taken, dropped, hSplit, hSettled⟩ := h.settled
  exact ⟨hSame.kept.ordered hSame.backends h.ordered, hSame.kept.tracked h.tracked, hSame.grouped h.grouped, taken, dropped,
    hSame.split hSplit, hSame.kept.settled hSettled⟩

theorem Live.goto (h : s.Live) {pc : Pc} (hLive : isLive pc = true) : Invariant { s with pc := pc } :=
  (h.same (.pc s pc)).invariant fun _ hSettled => (phase_iff_settled (s := { s with pc := pc }) hLive).mpr hSettled

theorem Live.top (h : s.Live) : Invariant { s with pc := .top } :=
  (h.same (.pc s .top)).invariant fun _ hSettled _ => hSettled

theorem Live.take (h : s.Live) (hCh : s.sub.ch = e :: rest) : (s.take e rest).Live := by
  obtain ⟨taken, dropped, hSplit, hSettled⟩ := h.settled
  obtain ⟨he, hBefore⟩ := take_before h.ordered hSplit hSettled hCh
  have hKept : Kept s { s with sub := { s.sub with ch := rest } } := ⟨rfl, rfl, rfl, rfl, rfl, rfl, rfl⟩
  have hOrdered := hKept.ordered rfl h.ordered
  have hTracked := hKept.tracked h.tracked
  have hGrouped : Grouped { s with sub := { s.sub with ch := rest } } :=
    { h.grouped with }
  refine ⟨hOrdered.deliver e, hTracked.deliver hOrdered he hBefore, hGrouped.deliver e, _, _, (hSplit.tail hCh).deliver e, ?_⟩
  intro x hx hMem
  rw [Subscription.take, deliver_owed] at hx
  rcases eq_or_ne x.backend e.backend with hb | hb
  · rw [hb, update_self] at hMem
    rcases mem_push.mp hMem with hMem | rfl
    · exact delivered_subset_deliver (hSettled x hx (hb ▸ hMem))
    · exact hTracked.mem_deliver hOrdered hx
  · rw [update_of_ne hb] at hMem
    exact delivered_subset_deliver (hSettled x hx hMem)

theorem Live.woken (h : s.Live) : Live { s with sub := { s.sub with recovery := false } } := by
  obtain ⟨taken, dropped, hSplit, hSettled⟩ := h.settled
  have hKept : Kept s { s with sub := { s.sub with recovery := false } } := ⟨rfl, rfl, rfl, rfl, rfl, rfl, rfl⟩
  exact ⟨hKept.ordered rfl h.ordered, hKept.tracked h.tracked,
    { h.grouped with }, taken, dropped,
    ⟨hSplit.parts, hSplit.pending⟩, hKept.settled hSettled⟩

theorem recover_same (s : Subscription) : Same s s.recover := by
  have hFlags : Same s { s with
      catchUp := true, recovering := true, enteredLive := false, ready := s.ready && !s.monitored,
      generation := s.generation + 1 } := ⟨rfl, rfl, rfl, rfl, rfl, rfl, rfl⟩
  exact (hFlags.trans (.emit _ .recovering .overflow)).trans (.pc _ .top)

theorem emit_frame (s : Subscription) (state : AdmissionState) (reason : AdmissionReason) :
    (s.emit state reason).catchUp = s.catchUp ∧ (s.emit state reason).recovering = s.recovering ∧
      (s.emit state reason).pc = s.pc := by
  unfold emit
  dsimp only
  split <;> exact ⟨rfl, rfl, rfl⟩

theorem recover_catchUp (s : Subscription) : s.recover.catchUp = true := (emit_frame _ _ _).1

theorem Live.recover (h : s.Live) : s.recover.Invariant := by
  refine (h.same (recover_same s)).invariant fun taken _ => ?_
  intro hFalse
  rw [recover_catchUp] at hFalse
  cases hFalse

end Loop

section Replays

variable {s : Subscription} {taken dropped : Bytes → List StoreChangeEvent} {iters : Iterators}

theorem group_le_owed (hOrdered : s.Ordered) (hGrouped : s.Grouped) (hNow : s.after = none) {x : StoreChangeEvent}
    (hx : s.Owed x) {g : AdmissionGroup} (hg : s.sub.admissionGroups x.backend = some g) : g.clusterTime ≤ x.clusterTime := by
  obtain ⟨first, rest, hFirst, hTime⟩ := hGrouped.first _ g hg
  have hSorted := hOrdered.sorted x.backend
  have hMem := hx.1
  rw [history, append_assoc, hFirst] at hSorted
  rw [base, hNow, hFirst] at hMem
  rw [← hTime]
  obtain rfl | hMem := mem_cons.mp hMem
  · exact le_rfl
  · exact (pairwise_cons.mp (pairwise_append.mp hSorted).2.1).1 x hMem

theorem replayScan_scanned (hOrdered : s.Ordered) (hTracked : s.Tracked) (hGrouped : s.Grouped)
    {floors : Option (Bytes → Option ClusterTime)} (hFloored : s.Floored floors taken) (iters : Iterators) (b : Bytes) :
    s.Scanned taken (update iters b (s.replayScan floors b)) b := by
  -- a scan from the position or from a later floor of the first group has everything that is missing
  have hScan : ∀ floor, (∀ t ∈ floor, ∀ x, s.Owed x → x.backend = b → t ≤ x.clusterTime) →
      s.Scanned taken (update iters b
        (scanFrom (s.history b) (scanStart ((s.sub.currentPos b).map Position.clusterTime) floor))) b := by
    intro floor hFloor
    have hFound : ∀ x, s.Owed x → x.backend = b → x ∈ s.delivered ∨
        x ∈ scanFrom (s.history b) (scanStart ((s.sub.currentPos b).map Position.clusterTime) floor) := by
      rintro x hx rfl
      rw [hTracked.position, mem_scanFrom]
      by_cases hLate : ∀ t ∈ scanStart (s.sub.lastClusterTime x.backend) floor, t ≤ x.clusterTime
      · exact .inr ⟨owed_history hx, hLate⟩
      refine .inl ?_
      push Not at hLate
      obtain ⟨t, ht, hLt⟩ := hLate
      unfold scanStart at ht
      split at ht
      · rename_i p f hLast
        cases ht
        split at hLt
        · exact absurd (hFloor f rfl x hx rfl) (not_le.mpr hLt)
        · exact hTracked.delivered_of_lt hx hLast hLt
      · rename_i p hLast
        cases ht
        exact hTracked.delivered_of_lt hx hLast hLt
      · exact absurd (hFloor t ht x hx rfl) (not_le.mpr hLt)
    refine ⟨?_, ?_, ?_, ?_⟩
    · rw [update_self]
      exact fun e he => (mem_scanFrom.mp he).1
    · rw [update_self]
      exact (pairwise_insertionSort keyLE _).imp keyLE_clusterTime
    · rw [update_self]
      exact fun x hx hb _ => hFound x hx hb
    · rw [update_self]
      exact fun x hx hb => (hFound x hx hb).imp_right .inl
  unfold replayScan
  cases floors with
  | none =>
    have hNone := hScan none fun _ h => (by cases h)
    have hStart : ∀ p : Option ClusterTime, scanStart p none = p := by
      intro p
      cases p <;> rfl
    rwa [hStart] at hNone
  | some floors =>
    obtain ⟨hNow, hFloors⟩ := hFloored
    dsimp only
    split
    · rename_i hNoFloor
      refine ⟨?_, ?_, ?_, ?_⟩
      · simp
      · simp
      · intro x _ _ hMem
        rw [(hFloors b).1 hNoFloor] at hMem
        cases hMem
      · simp
    · rename_i floor hFloor
      obtain ⟨g, hg, rfl⟩ := (hFloors b).2 floor hFloor
      refine hScan (some g.clusterTime) ?_
      rintro t ⟨⟩ x hx rfl
      exact group_le_owed hOrdered hGrouped hNow hx hg

variable {b : Bytes}

theorem Scanned.congr {iters' : Iterators} (hSame : iters' b = iters b) (h : s.Scanned taken iters b) :
    s.Scanned taken iters' b :=
  ⟨hSame ▸ h.known, hSame ▸ h.sorted, hSame ▸ h.covers, hSame ▸ h.ahead⟩

theorem Scanned.deliver (h : s.Scanned taken iters b) (e : StoreChangeEvent) : (s.deliver e).Scanned taken iters b := by
  refine ⟨?_, h.sorted, ?_, ?_⟩
  · rw [deliver_history]
    exact h.known
  · rw [deliver_owed]
    exact fun x hx hb hMem => (h.covers x hx hb hMem).imp_left delivered_subset_deliver
  · rw [deliver_owed]
    exact fun x hx hb => (h.ahead x hx hb).imp_left delivered_subset_deliver

variable {e : StoreChangeEvent}

theorem Scanned.tail {rest : List StoreChangeEvent} (h : s.Scanned taken iters b) (hIter : iters b = e :: rest)
    (hDone : s.Owed e → e.backend = b → e ∈ s.delivered ∨ e ∉ taken b ∧ ∀ y ∈ rest, y.clusterTime ≤ e.clusterTime) :
    s.Scanned taken (update iters b rest) b := by
  have hKnown := h.known
  have hSorted := h.sorted
  have hCovers := h.covers
  have hAhead := h.ahead
  rw [hIter] at hKnown hSorted hCovers hAhead
  refine ⟨?_, ?_, ?_, ?_⟩
  · rw [update_self]
    exact fun x hx => hKnown x (mem_cons_of_mem _ hx)
  · rw [update_self]
    exact (pairwise_cons.mp hSorted).2
  · rw [update_self]
    intro x hx hb hMem
    obtain hDelivered | hRead := hCovers x hx hb hMem
    · exact .inl hDelivered
    obtain rfl | hRead := mem_cons.mp hRead
    · exact .inl ((hDone hx hb).resolve_right fun hNot => hNot.1 hMem)
    · exact .inr hRead
  · rw [update_self]
    intro x hx hb
    obtain hDelivered | hRead | hLater := hAhead x hx hb
    · exact .inl hDelivered
    · obtain rfl | hRead := mem_cons.mp hRead
      · exact (hDone hx hb).imp_right fun hNot => .inr hNot.2
      · exact .inr (.inl hRead)
    · exact .inr (.inr fun y hy => hLater y (mem_cons_of_mem _ hy))

/-- A replay passes over an event that is written but not broadcast yet only when nothing later of its
backend is left to read. -/
def ReadsLast (s : Subscription) : Prop :=
  ∀ iters h, s.pc = .replaying iters → leastHead (heads s.backends iters) = some h →
    s.sub.replayAdmitted h.event = false → h.event ∈ s.unsent h.backend → ∀ y ∈ h.rest, y.clusterTime ≤ h.event.clusterTime

theorem broadcast_admitted (hOrdered : s.Ordered) (hGrouped : s.Grouped) (he : s.Owed e)
    (hNot : s.sub.replayAdmitted e = false) : s.after = none ∧ e ∉ s.broadcasts e.backend := by
  unfold Subscriber.replayAdmitted at hNot
  split at hNot
  · cases hNot
  rename_i hMode
  have hNow : s.sub.startFromNow = true := by simpa using hMode
  have hAfter : s.after = none := by
    rw [hGrouped.mode] at hNow
    simpa using hNow
  refine ⟨hAfter, fun hMem => ?_⟩
  split at hNot
  · rename_i hNone
    rw [hGrouped.empty hNow _ hNone] at hMem
    cases hMem
  · rename_i g hg
    have hLe := group_le_owed hOrdered hGrouped hAfter he hg
    split at hNot
    · rename_i hLt
      exact absurd hLe (not_le.mpr hLt)
    split at hNot
    · cases hNot
    rename_i hGe
    have hEq : e.clusterTime = g.clusterTime := le_antisymm (not_lt.mp hGe) hLe
    simp [hGrouped.ids _ g hg e hMem hEq] at hNot

theorem Invariant.read (h : s.Invariant) (hPc : s.pc = .replaying iters) (hReads : s.ReadsLast) : (s.read iters).Invariant := by
  obtain ⟨taken, dropped, hSplit, hPhase⟩ := h.phase
  have hScanned : ∀ b, s.Scanned taken iters b := by
    unfold Phase at hPhase
    rwa [hPc] at hPhase
  unfold Subscription.read
  split
  · rename_i head hHead
    have hIter := leastHead_heads hHead
    have hMem : head.event ∈ s.history head.backend := (hScanned head.backend).known _ (by rw [hIter]; exact mem_cons_self)
    have hBackend := h.ordered.backend _ _ hMem
    have hSame : Same s { s with pc := .replaying (update iters head.backend head.rest) } := .pc s _
    have hOthers : ∀ b, b ≠ head.backend → s.Scanned taken (update iters head.backend head.rest) b :=
      fun b hb => (hScanned b).congr (update_of_ne hb _ _)
    dsimp only
    split
    · -- the event is delivered unless it was before
      have hOrdered := hSame.kept.ordered rfl h.ordered
      have hTracked := hSame.kept.tracked h.tracked
      have hBefore : ∀ x, s.Owed x → x.backend = head.event.backend → x.clusterTime < head.event.clusterTime →
          x ∈ s.delivered := by
        intro x hx hb hLt
        have hSorted := (hScanned head.backend).sorted
        rw [hIter] at hSorted
        obtain hDelivered | hRead | hLater := (hScanned head.backend).ahead x hx (hb.trans hBackend)
        · exact hDelivered
        · rw [hIter] at hRead
          obtain rfl | hRead := mem_cons.mp hRead
          · exact absurd hLt (lt_irrefl _)
          · exact absurd ((pairwise_cons.mp hSorted).1 x hRead) (not_le.mpr hLt)
        · exact absurd (hLater head.event (by rw [hIter]; exact mem_cons_self)) (not_le.mpr hLt)
      refine ⟨hOrdered.deliver _, hTracked.deliver hOrdered (hBackend ▸ hMem) hBefore, (hSame.grouped h.grouped).deliver _,
        taken, dropped, (hSame.split hSplit).deliver _, ?_⟩
      have hRead : ∀ b, Scanned (deliver { s with pc := .replaying (update iters head.backend head.rest) } head.event)
          taken (update iters head.backend head.rest) b := by
        intro b
        rcases eq_or_ne b head.backend with rfl | hb
        · refine Scanned.tail ((hSame.kept.scanned (hScanned _)).deliver _) hIter fun hOwed _ => .inl ?_
          rw [deliver_owed] at hOwed
          exact hTracked.mem_deliver hOrdered hOwed
        · exact (hSame.kept.scanned (hOthers b hb)).deliver _
      unfold Phase
      rw [(deliver_frame _ _).1]
      exact hRead
    · rename_i hNot
      have hNot : s.sub.replayAdmitted head.event = false := by simpa using hNot
      have hRead : ∀ b, s.Scanned taken (update iters head.backend head.rest) b := by
        intro b
        rcases eq_or_ne b head.backend with rfl | hb
        · refine (hScanned _).tail hIter fun hOwed _ => .inr ?_
          obtain ⟨hNow, hUnsent⟩ := broadcast_admitted h.ordered h.grouped hOwed hNot
          rw [hBackend] at hUnsent
          have hBase : s.base head.backend = [] := by simp [base, hNow]
          refine ⟨fun hTaken => hUnsent ?_, hReads iters head hPc hHead hNot ?_⟩
          · have hParts := hSplit.parts head.backend
            rw [hBase, nil_append] at hParts
            rw [hParts]
            exact mem_append_left _ (mem_append_left _ hTaken)
          · have hOwed := hOwed.1
            rw [hBackend, hBase, nil_append] at hOwed
            exact (mem_append.mp hOwed).resolve_left hUnsent
        · exact hOthers b hb
      exact ⟨hSame.kept.ordered rfl h.ordered, hSame.kept.tracked h.tracked, hSame.grouped h.grouped, taken, dropped,
        hSame.split hSplit, fun b => hSame.kept.scanned (hRead b)⟩
  · rename_i hNone
    have hLive : s.Live := by
      refine ⟨h.ordered, h.tracked, h.grouped, taken, dropped, hSplit, fun x hx hTaken => ?_⟩
      have hConfigured := h.ordered.configured _ _ (owed_history hx)
      refine ((hScanned x.backend).covers x hx rfl hTaken).resolve_right fun hRead => ?_
      rw [heads_nil hNone hConfigured] at hRead
      cases hRead
    split
    · have hSame : Same s { s with recovering := true, pc := .top } := ⟨rfl, rfl, rfl, rfl, rfl, rfl, rfl⟩
      exact (hLive.same hSame).invariant fun _ hSettled _ => hSettled
    have hSame : Same s { s with catchUp := false, recovering := false, pc := .entering } :=
      ⟨rfl, rfl, rfl, rfl, rfl, rfl, rfl⟩
    exact (hLive.same hSame).invariant fun _ hSettled => hSettled

theorem Invariant.openScan (h : s.Invariant) {floors : Option (Bytes → Option ClusterTime)} {todo : List Bytes}
    (hPc : s.pc = .opening floors iters todo) (b : Bytes) :
    Invariant { s with pc := .opening floors (update iters b (s.replayScan floors b)) (todo.filter fun x => x ≠ b) } := by
  obtain ⟨taken, dropped, hSplit, hPhase⟩ := h.phase
  unfold Phase at hPhase
  rw [hPc] at hPhase
  obtain ⟨hFloored, hScanned⟩ := hPhase
  have hSame := Same.pc s (.opening floors (update iters b (s.replayScan floors b)) (todo.filter fun x => x ≠ b))
  refine ⟨hSame.kept.ordered rfl h.ordered, hSame.kept.tracked h.tracked, hSame.grouped h.grouped, taken, dropped,
    hSame.split hSplit, ?_, fun c hc => hSame.kept.scanned ?_⟩
  · cases floors with
    | none | some floors => exact hFloored
  · rcases eq_or_ne c b with rfl | hcb
    · exact replayScan_scanned h.ordered h.tracked h.grouped hFloored iters c
    · refine (hScanned c fun hMem => hc ?_).congr (update_of_ne hcb _ _)
      exact mem_filter.mpr ⟨hMem, by simpa using hcb⟩

theorem Invariant.floors (h : s.Invariant) : Invariant { s with
    pc := .opening (if s.sub.startFromNow then some s.sub.admissionFloors else none) (fun _ => []) s.backends } := by
  obtain ⟨taken, dropped, hSplit, -⟩ := h.phase
  have hSame := Same.pc s (.opening (if s.sub.startFromNow then some s.sub.admissionFloors else none) (fun _ => []) s.backends)
  refine ⟨hSame.kept.ordered rfl h.ordered, hSame.kept.tracked h.tracked, hSame.grouped h.grouped, taken, dropped,
    hSame.split hSplit, ?_, fun b hb => hSame.kept.scanned ?_⟩
  · cases hNow : s.sub.startFromNow with
    | false =>
      have hAfter := h.grouped.mode
      rw [hNow] at hAfter
      simpa [Floored, isSome_iff_ne_none, isNone_iff_eq_none] using hAfter.symm
    | true =>
      have hAfter : s.after = none := by
        have hMode := h.grouped.mode
        rw [hNow] at hMode
        simpa using hMode.symm
      refine ⟨hAfter, fun b => ⟨fun hNone => ?_, fun t ht => map_eq_some_iff.mp ht⟩⟩
      have hGroup : s.sub.admissionGroups b = none := by simpa [Subscriber.admissionFloors] using hNone
      have hParts := hSplit.parts b
      rw [base, hAfter, h.grouped.empty hNow b hGroup] at hParts
      have hEmpty := congrArg List.length hParts
      exact eq_nil_of_length_eq_zero (by simp at hEmpty; omega)
  · -- a backend that is not configured has no events
    have hNothing : ∀ x, s.Owed x → x.backend = b → False := by
      rintro x hx rfl
      exact hb (h.ordered.configured _ _ (owed_history hx))
    exact ⟨fun _ he => (by cases he), .nil, fun x hx hxb => (hNothing x hx hxb).elim,
      fun x hx hxb => (hNothing x hx hxb).elim⟩

end Replays

end Subscription

end Syntrix.Puller
