import Syntrix.Puller.Delivery

/-! # Phases of a subscription

While the subscription is live, everything that left the queue has been delivered; during a replay it has
been delivered or is still to be read. Writing and broadcasting an event keep this in every phase.
-/
namespace Syntrix.Puller

open Lib List Function

namespace Subscription

section Phases

variable (s : Subscription)

def Settled (taken : Bytes → List StoreChangeEvent) : Prop :=
  ∀ x, s.Owed x → x ∈ taken x.backend → x ∈ s.delivered

/-- What belongs to the subscription left the queue, is in it or was dropped by an overflow. -/
structure Split (taken dropped : Bytes → List StoreChangeEvent) : Prop where
  parts : ∀ b, s.base b ++ s.broadcasts b = taken b ++ s.sub.ch.filter (fun e => e.backend = b) ++ dropped b
  pending : s.sub.recoveryPending = false → ∀ b, dropped b = []

structure Scanned (taken : Bytes → List StoreChangeEvent) (iters : Iterators) (b : Bytes) : Prop where
  known : ∀ e ∈ iters b, e ∈ s.history b
  sorted : (iters b).Pairwise fun x y => x.clusterTime ≤ y.clusterTime
  covers : ∀ x, s.Owed x → x.backend = b → x ∈ taken b → x ∈ s.delivered ∨ x ∈ iters b
  ahead : ∀ x, s.Owed x → x.backend = b → x ∈ s.delivered ∨ x ∈ iters b ∨ ∀ y ∈ iters b, y.clusterTime ≤ x.clusterTime

/-- A subscription that starts from now replays from the first broadcast of each backend. -/
def Floored (floors : Option (Bytes → Option ClusterTime)) (taken : Bytes → List StoreChangeEvent) : Prop :=
  match floors with
  | none => s.after.isSome = true
  | some floors => s.after = none ∧ ∀ b, (floors b = none → taken b = []) ∧
    ∀ t, floors b = some t → ∃ g, s.sub.admissionGroups b = some g ∧ g.clusterTime = t

def Phase (taken : Bytes → List StoreChangeEvent) : Prop :=
  match s.pc with
  | .registered => s.after = none → s.Settled taken
  | .top => s.catchUp = false → s.Settled taken
  | .waiting => s.catchUp = false → s.Settled taken
  | .draining => True
  | .beginning => True
  | .snapshot => True
  | .opening floors iters todo => s.Floored floors taken ∧ ∀ b, b ∉ todo → s.Scanned taken iters b
  | .replaying iters => ∀ b, s.Scanned taken iters b
  | .entering => s.Settled taken
  | .gate => s.Settled taken
  | .fencing => s.Settled taken
  | .admitting => s.Settled taken
  | .picking => s.Settled taken
  | .checking => s.Settled taken
  | .announcing => s.Settled taken
  | .selecting => s.Settled taken
  | .stopped => True

structure Invariant : Prop where
  ordered : s.Ordered
  tracked : s.Tracked
  grouped : s.Grouped
  phase : ∃ taken dropped, s.Split taken dropped ∧ s.Phase taken

end Phases

section Frames

variable {s s' : Subscription} {taken taken' : Bytes → List StoreChangeEvent}

theorem Phase.imp (hPc : s'.pc = s.pc) (hCatchUp : s'.catchUp = s.catchUp) (hAfter : s'.after = s.after)
    (hSettled : s.Settled taken → s'.Settled taken') (hFloored : ∀ floors, s.Floored floors taken → s'.Floored floors taken')
    (hScanned : ∀ iters b, s.Scanned taken iters b → s'.Scanned taken' iters b) (h : s.Phase taken) : s'.Phase taken' := by
  unfold Phase at h ⊢
  rw [hPc, hCatchUp, hAfter]
  cases hCase : s.pc with
  | opening floors iters todo =>
    rw [hCase] at h
    exact ⟨hFloored _ h.1, fun b hb => hScanned _ b (h.2 b hb)⟩
  | replaying iters =>
    rw [hCase] at h
    exact fun b => hScanned _ b (h b)
  | registered | top | waiting =>
    rw [hCase] at h
    exact fun hLive => hSettled (h hLive)
  | draining | beginning | snapshot | stopped => trivial
  | entering | gate | fencing | admitting | picking | checking | announcing | selecting =>
    rw [hCase] at h
    exact hSettled h

/-- The source as the subscription sees it and what was sent are the same. -/
structure Kept (s s' : Subscription) : Prop where
  after : s'.after = s.after
  history : s'.history = s.history
  owed : s'.Owed = s.Owed
  sent : s'.sent = s.sent
  currentPos : s'.sub.currentPos = s.sub.currentPos
  lastClusterTime : s'.sub.lastClusterTime = s.sub.lastClusterTime
  deliveredIDs : s'.sub.deliveredIDs = s.sub.deliveredIDs

namespace Kept

theorem delivered (k : Kept s s') : s'.delivered = s.delivered := by
  rw [Subscription.delivered, Subscription.delivered, k.sent]

theorem ordered (k : Kept s s') (hBackends : s'.backends = s.backends) (h : s.Ordered) : s'.Ordered := by
  refine ⟨?_, ?_, ?_, ?_⟩
  · rw [k.history]
    exact h.backend
  · rw [k.history, hBackends]
    exact h.configured
  · rw [k.history]
    exact h.sorted
  · rw [k.history]
    exact h.distinct

theorem tracked (k : Kept s s') (h : s.Tracked) : s'.Tracked := by
  have hDelivered := k.delivered
  refine ⟨?_, ?_, ?_, ?_, ?_, ?_, ?_, ?_, ?_, ?_⟩
  · rw [hDelivered, k.history]
    exact h.known
  · rw [hDelivered, k.lastClusterTime]
    exact h.reached
  · rw [hDelivered, k.lastClusterTime, k.deliveredIDs]
    exact h.marked
  · rw [hDelivered, k.deliveredIDs]
    exact h.named
  · rw [hDelivered, k.lastClusterTime, k.after]
    exact h.origin
  · rw [k.currentPos, k.lastClusterTime]
    exact h.position
  · rw [hDelivered]
    exact h.apart
  · rw [hDelivered, k.sent, k.owed]
    exact h.before
  · rw [hDelivered, k.sent, k.after]
    exact h.progress
  · rw [hDelivered, k.sent, k.owed]
    exact h.saved

theorem settled (k : Kept s s') (h : s.Settled taken) : s'.Settled taken := by
  rw [Settled, k.owed, k.delivered]
  exact h

theorem scanned (k : Kept s s') {iters : Iterators} {b : Bytes} (h : s.Scanned taken iters b) : s'.Scanned taken iters b := by
  refine ⟨?_, h.sorted, ?_, ?_⟩
  · rw [k.history]
    exact h.known
  · rw [k.owed, k.delivered]
    exact h.covers
  · rw [k.owed, k.delivered]
    exact h.ahead

end Kept

/-- Steps of the loop that touch neither the source nor the subscriber, and send no event. -/
structure Same (s s' : Subscription) : Prop where
  backends : s'.backends = s.backends
  after : s'.after = s.after
  earlier : s'.earlier = s.earlier
  broadcasts : s'.broadcasts = s.broadcasts
  unsent : s'.unsent = s.unsent
  sub : s'.sub = s.sub
  sent : s'.sent = s.sent

namespace Same

theorem base (h : Same s s') : s'.base = s.base := by
  funext b
  simp only [Subscription.base, h.after, h.earlier]

theorem kept (h : Same s s') : Kept s s' := by
  refine ⟨h.after, ?_, ?_, h.sent, ?_, ?_, ?_⟩
  · funext b
    simp only [history, h.earlier, h.broadcasts, h.unsent]
  · funext x
    simp only [Owed, h.base, h.broadcasts, h.unsent, h.after]
  all_goals rw [h.sub]

theorem split (h : Same s s') {dropped : Bytes → List StoreChangeEvent} (hSplit : s.Split taken dropped) :
    s'.Split taken dropped := by
  refine ⟨?_, ?_⟩
  · rw [h.base, h.broadcasts, h.sub]
    exact hSplit.parts
  · rw [h.sub]
    exact hSplit.pending

theorem grouped (h : Same s s') (hGrouped : s.Grouped) : s'.Grouped := by
  refine ⟨?_, ?_, ?_, ?_, ?_⟩
  · rw [h.sub, h.after]
    exact hGrouped.mode
  · rw [h.sub]
    exact hGrouped.idle
  · rw [h.sub, h.broadcasts]
    exact hGrouped.empty
  · rw [h.sub, h.broadcasts]
    exact hGrouped.first
  · rw [h.sub, h.broadcasts]
    exact hGrouped.ids

theorem pc (s : Subscription) (pc : Pc) : Same s { s with pc := pc } := ⟨rfl, rfl, rfl, rfl, rfl, rfl, rfl⟩

theorem trans {s'' : Subscription} (h : Same s s') (h' : Same s' s'') : Same s s'' :=
  ⟨h'.backends.trans h.backends, h'.after.trans h.after, h'.earlier.trans h.earlier, h'.broadcasts.trans h.broadcasts,
    h'.unsent.trans h.unsent, h'.sub.trans h.sub, h'.sent.trans h.sent⟩

theorem emit (s : Subscription) (state : AdmissionState) (reason : AdmissionReason) : Same s (s.emit state reason) := by
  unfold Subscription.emit
  dsimp only
  split
  · exact ⟨rfl, rfl, rfl, rfl, rfl, rfl, by simp [Subscription.sent]⟩
  · exact ⟨rfl, rfl, rfl, rfl, rfl, rfl, rfl⟩

end Same

theorem Invariant.same (h : s.Invariant) (hSame : Same s s') (hPhase : ∀ taken, s.Phase taken → s'.Phase taken) :
    s'.Invariant := by
  obtain ⟨taken, dropped, hSplit, hp⟩ := h.phase
  exact ⟨hSame.kept.ordered hSame.backends h.ordered, hSame.kept.tracked h.tracked, hSame.grouped h.grouped, taken, dropped,
    hSame.split hSplit, hPhase taken hp⟩

end Frames

section Source

variable {s : Subscription} {taken dropped : Bytes → List StoreChangeEvent}

theorem mem_history_of_taken (hSplit : s.Split taken dropped) {x : StoreChangeEvent} {b : Bytes} (h : x ∈ taken b) :
    x ∈ s.history b := by
  have hMem : x ∈ s.base b ++ s.broadcasts b := by
    rw [hSplit.parts b]
    exact mem_append_left _ (mem_append_left _ h)
  unfold base at hMem
  simp only [history, mem_append]
  split at hMem
  · exact .inl (mem_append.mp hMem)
  · exact .inl (.inr hMem)

/-- Capture writes the events of configured backends in the order of their cluster times, each once. -/
structure Captures (s : Subscription) (e : StoreChangeEvent) : Prop where
  configured : e.backend ∈ s.backends
  latest : ∀ x ∈ s.history e.backend, x.clusterTime ≤ e.clusterTime
  distinct : ∀ x ∈ s.history e.backend, x.eventID ≠ e.eventID

def written (s : Subscription) (e : StoreChangeEvent) : Subscription :=
  { s with unsent := update s.unsent e.backend (s.unsent e.backend ++ [e]) }

section Written

variable {e x : StoreChangeEvent}

theorem written_history (s : Subscription) (e : StoreChangeEvent) :
    (s.written e).history = update s.history e.backend (s.history e.backend ++ [e]) := by
  funext b
  rcases eq_or_ne b e.backend with rfl | hb
  · simp [history, written]
  · simp [history, written, hb]

theorem history_subset_written {b : Bytes} (h : x ∈ s.history b) : x ∈ (s.written e).history b := by
  rw [written_history]
  rcases eq_or_ne b e.backend with rfl | hb
  · rw [update_self]
    exact mem_append_left _ h
  · rwa [update_of_ne hb]

theorem owed_written (h : (s.written e).Owed x) : s.Owed x ∨ x = e := by
  obtain ⟨hMem, hStart⟩ := h
  rcases eq_or_ne x.backend e.backend with hb | hb
  · simp only [written, base, hb, update_self, mem_append, mem_singleton] at hMem
    obtain hMem | hMem | rfl := hMem
    · refine .inl ⟨?_, hStart⟩
      rw [hb]
      exact mem_append_left _ (mem_append.mpr hMem)
    · refine .inl ⟨?_, hStart⟩
      rw [hb]
      exact mem_append_right _ hMem
    · exact .inr rfl
  · simp only [written, base, update_of_ne hb] at hMem
    exact .inl ⟨hMem, hStart⟩

theorem owed_of_history (hCaptures : s.Captures e) (h : (s.written e).Owed x) (hx : x ∈ s.history x.backend) : s.Owed x := by
  obtain hOwed | rfl := owed_written h
  · exact hOwed
  · exact absurd rfl (hCaptures.distinct x hx)

theorem Ordered.written (hCaptures : s.Captures e) (h : s.Ordered) : (s.written e).Ordered := by
  have hEvery : ∀ b, ∀ x ∈ (s.written e).history b, x ∈ s.history b ∨ b = e.backend ∧ x = e := by
    intro b x hx
    rw [written_history] at hx
    rcases eq_or_ne b e.backend with rfl | hb
    · rw [update_self] at hx
      exact (mem_append.mp hx).imp_right fun hx => ⟨rfl, mem_singleton.mp hx⟩
    · rw [update_of_ne hb] at hx
      exact .inl hx
  refine ⟨fun b x hx => ?_, fun b x hx => ?_, fun b => ?_, fun b => ?_⟩
  · obtain hx | ⟨rfl, rfl⟩ := hEvery b x hx
    · exact h.backend b x hx
    · rfl
  · obtain hx | ⟨rfl, -⟩ := hEvery b x hx
    · exact h.configured b x hx
    · exact hCaptures.configured
  · rw [written_history]
    rcases eq_or_ne b e.backend with rfl | hb
    · rw [update_self]
      exact pairwise_push (h.sorted _) hCaptures.latest
    · rw [update_of_ne hb]
      exact h.sorted b
  · rw [written_history]
    rcases eq_or_ne b e.backend with rfl | hb
    · rw [update_self, map_append, nodup_append]
      refine ⟨h.distinct _, nodup_singleton _, ?_⟩
      rintro id hId id' hId' rfl
      obtain ⟨x, hx, rfl⟩ := List.mem_map.mp hId
      exact hCaptures.distinct x hx (by simpa using hId')
    · rw [update_of_ne hb]
      exact h.distinct b

theorem Tracked.written (hCaptures : s.Captures e) (h : s.Tracked) : (s.written e).Tracked := by
  have hKnown : ∀ f ∈ s.delivered, f.backend = e.backend → f.clusterTime ≤ e.clusterTime := by
    intro f hf hb
    have hHistory := h.known f hf
    rw [hb] at hHistory
    exact hCaptures.latest f hHistory
  refine { h with known := fun f hf => history_subset_written (h.known f hf), before := ?_, saved := ?_ }
  · intro i f p hi x hx hBackend hLt
    obtain hx | rfl := owed_written hx
    · exact h.before i f p hi x hx hBackend hLt
    · have hf : f ∈ s.delivered := List.mem_map.mpr ⟨_, mem_of_getElem? hi, rfl⟩
      exact absurd (hKnown f hf hBackend.symm) (not_le.mpr hLt)
  · intro i f p hi x hx hNot pos hPos
    obtain hOwed | rfl := owed_written hx
    · exact h.saved i f p hi x hOwed hNot pos hPos
    obtain ⟨g, hg, hBackend, hTime⟩ | ⟨q, hq, start, hStart, hTime⟩ := h.progress i f p hi _ pos hPos
    · exact hTime ▸ hKnown g hg hBackend
    · exact hTime ▸ hx.2 q hq start hStart

theorem Invariant.write (hCaptures : s.Captures e) (h : s.Invariant) : (s.written e).Invariant := by
  obtain ⟨taken, dropped, hSplit, hPhase⟩ := h.phase
  have hTaken : ∀ x, (s.written e).Owed x → x ∈ taken x.backend → s.Owed x := fun x hx hMem =>
    owed_of_history hCaptures hx (mem_history_of_taken hSplit hMem)
  refine ⟨h.ordered.written hCaptures, h.tracked.written hCaptures,
    { h.grouped with }, taken, dropped, ⟨hSplit.parts, hSplit.pending⟩, ?_⟩
  refine Phase.imp (s := s) rfl rfl rfl ?_ (fun _ hFloored => hFloored) ?_ hPhase
  · intro hSettled x hx hMem
    exact hSettled x (hTaken x hx hMem) hMem
  · intro iters b hScanned
    refine ⟨fun x hx => history_subset_written (hScanned.known x hx), hScanned.sorted, ?_, ?_⟩
    · rintro x hx rfl hMem
      exact hScanned.covers x (hTaken x hx hMem) rfl hMem
    · rintro x hx rfl
      obtain hOwed | rfl := owed_written hx
      · exact hScanned.ahead x hOwed rfl
      · exact .inr (.inr fun y hy => hCaptures.latest y (hScanned.known y hy))

end Written

section Broadcast

variable {e : StoreChangeEvent} {rest : List StoreChangeEvent}

def groupsAfter (s : Subscriber) (e : StoreChangeEvent) : Bytes → Option AdmissionGroup :=
  if s.startFromNow then
    update s.admissionGroups e.backend (some (Subscriber.joinGroup (s.admissionGroups e.backend) e))
  else s.admissionGroups

theorem enqueue_cases (s : Subscriber) (e : StoreChangeEvent) :
    s.recoveryPending = true ∧ s.enqueue e = { s with admissionGroups := groupsAfter s e } ∨
      s.recoveryPending = false ∧
        (s.enqueue e = { s with admissionGroups := groupsAfter s e, ch := s.ch ++ [e] } ∨
          s.enqueue e = { s with admissionGroups := groupsAfter s e, recoveryPending := true, recovery := true }) := by
  have hGroups : (if s.startFromNow then
      { s with admissionGroups := update s.admissionGroups e.backend (some (Subscriber.joinGroup (s.admissionGroups e.backend) e)) }
    else s) = { s with admissionGroups := groupsAfter s e } := by
    unfold groupsAfter
    split <;> rfl
  unfold Subscriber.enqueue
  rw [hGroups]
  cases hPending : s.recoveryPending with
  | true => simp
  | false =>
    simp only [Bool.false_eq_true, if_false, true_and, false_and, false_or]
    split
    · exact .inl rfl
    · exact .inr rfl

def broadcast (s : Subscription) (b : Bytes) (e : StoreChangeEvent) (rest : List StoreChangeEvent) : Subscription :=
  { s with
    unsent := update s.unsent b rest
    broadcasts := update s.broadcasts b (s.broadcasts b ++ [e])
    sub := s.sub.enqueue e }

theorem enqueue_keeps (s : Subscriber) (e : StoreChangeEvent) :
    (s.enqueue e).currentPos = s.currentPos ∧ (s.enqueue e).lastClusterTime = s.lastClusterTime ∧
      (s.enqueue e).deliveredIDs = s.deliveredIDs ∧ (s.enqueue e).startFromNow = s.startFromNow ∧
      (s.enqueue e).admissionGroups = groupsAfter s e := by
  obtain ⟨-, h⟩ | ⟨-, h | h⟩ := enqueue_cases s e
  all_goals
    rw [h]
    exact ⟨rfl, rfl, rfl, rfl, rfl⟩

variable {b : Bytes}

theorem broadcast_kept (hUnsent : s.unsent b = e :: rest) : Kept s (s.broadcast b e rest) := by
  obtain ⟨hPos, hLast, hIds, -, -⟩ := enqueue_keeps s.sub e
  refine ⟨rfl, ?_, ?_, rfl, hPos, hLast, hIds⟩
  · funext c
    rcases eq_or_ne c b with rfl | hc
    · simp [history, broadcast, hUnsent]
    · simp [history, broadcast, hc]
  · funext x
    have hBase : (s.broadcast b e rest).base = s.base := rfl
    rw [Owed, Owed, hBase]
    rcases eq_or_ne x.backend b with hb | hb
    · simp [broadcast, hb, hUnsent]
    · simp [broadcast, hb]

theorem Split.broadcast (hSplit : s.Split taken dropped) (rest : List StoreChangeEvent) (hb : e.backend = b) :
    ∃ dropped', (s.broadcast b e rest).Split taken dropped' := by
  have hParts : ∀ c, (s.broadcast b e rest).base c ++ (s.broadcast b e rest).broadcasts c =
      s.base c ++ s.broadcasts c ++ if c = b then [e] else [] := by
    intro c
    have hBase : (s.broadcast b e rest).base = s.base := rfl
    rw [hBase]
    rcases eq_or_ne c b with rfl | hc
    · simp [Subscription.broadcast]
    · simp [Subscription.broadcast, hc]
  obtain ⟨hPending, hSub⟩ | ⟨hPending, hSub | hSub⟩ := enqueue_cases s.sub e
  · refine ⟨fun c => dropped c ++ if c = b then [e] else [], fun c => ?_, fun hFalse => ?_⟩
    · rw [hParts, hSplit.parts]
      simp [Subscription.broadcast, hSub]
    · rw [Subscription.broadcast, hSub] at hFalse
      exact absurd (hPending.symm.trans hFalse) (by decide)
  · refine ⟨fun _ => [], fun c => ?_, fun _ _ => rfl⟩
    rw [hParts, hSplit.parts, hSplit.pending hPending]
    rcases eq_or_ne c b with rfl | hc
    · simp [Subscription.broadcast, hSub, hb]
    · simp [Subscription.broadcast, hSub, hb, hc, Ne.symm hc]
  · refine ⟨fun c => if c = b then [e] else [], fun c => ?_, fun hFalse => ?_⟩
    · rw [hParts, hSplit.parts, hSplit.pending hPending]
      simp [Subscription.broadcast, hSub]
    · rw [Subscription.broadcast, hSub] at hFalse
      cases hFalse

theorem groupsAfter_cases {sub : Subscriber} (hMode : sub.startFromNow = true) (hb : e.backend = b) (c : Bytes) :
    groupsAfter sub e c = if c = b then some (Subscriber.joinGroup (sub.admissionGroups b) e) else sub.admissionGroups c := by
  subst hb
  rw [groupsAfter, if_pos hMode]
  split
  · rename_i hc
    rw [hc, update_self]
  · rename_i hc
    rw [update_of_ne hc]

theorem Grouped.broadcast (h : s.Grouped) (hb : e.backend = b) : (s.broadcast b e rest).Grouped := by
  obtain ⟨-, -, -, hMode, hGroups⟩ := enqueue_keeps s.sub e
  have hSub : (s.broadcast b e rest).sub = s.sub.enqueue e := rfl
  have hOthers : ∀ c, c ≠ b → (s.broadcast b e rest).broadcasts c = s.broadcasts c :=
    fun c hc => update_of_ne hc _ _
  have hOwn : (s.broadcast b e rest).broadcasts b = s.broadcasts b ++ [e] := update_self _ _ _
  refine ⟨hMode.trans h.mode, ?_, ?_, ?_, ?_⟩
  · intro hIdle c
    rw [hSub, hMode] at hIdle
    rw [hSub, hGroups, groupsAfter, if_neg (by simp [hIdle])]
    exact h.idle hIdle c
  · intro hNow c hNone
    rw [hSub, hMode] at hNow
    rw [hSub, hGroups, groupsAfter_cases hNow hb] at hNone
    split at hNone
    · cases hNone
    rename_i hc
    rw [hOthers c hc]
    exact h.empty hNow c hNone
  · intro c g hg
    rw [hSub, hGroups] at hg
    cases hNow : s.sub.startFromNow with
    | false =>
      rw [groupsAfter, if_neg (by simp [hNow]), h.idle hNow] at hg
      cases hg
    | true =>
      rw [groupsAfter_cases hNow hb] at hg
      split at hg
      · rename_i hc
        subst hc
        rw [hOwn]
        cases hOld : s.sub.admissionGroups c with
        | none =>
          rw [hOld] at hg
          cases hg
          exact ⟨e, [], by rw [h.empty hNow c hOld]; rfl, rfl⟩
        | some old =>
          rw [hOld] at hg
          obtain ⟨first, others, hFirst, hTime⟩ := h.first c old hOld
          refine ⟨first, others ++ [e], by rw [hFirst]; rfl, ?_⟩
          rw [hTime, ← Option.some.inj hg, Subscriber.joinGroup]
          split <;> rfl
      · rename_i hc
        rw [hOthers c hc]
        exact h.first c g hg
  · intro c g hg x hx hTime
    rw [hSub, hGroups] at hg
    cases hNow : s.sub.startFromNow with
    | false =>
      rw [groupsAfter, if_neg (by simp [hNow]), h.idle hNow] at hg
      cases hg
    | true =>
      rw [groupsAfter_cases hNow hb] at hg
      split at hg
      · rename_i hc
        subst hc
        rw [hOwn] at hx
        cases hOld : s.sub.admissionGroups c with
        | none =>
          rw [hOld] at hg
          rw [h.empty hNow c hOld] at hx
          cases hg
          rw [mem_singleton.mp hx]
          exact mem_cons_self
        | some old =>
          rw [hOld] at hg
          have hg := Option.some.inj hg
          rw [Subscriber.joinGroup] at hg
          split at hg
          · subst hg
            rcases mem_push.mp hx with hx | rfl
            · exact mem_cons_of_mem _ (h.ids c old hOld x hx hTime)
            · exact mem_cons_self
          · rename_i hOther
            subst hg
            rcases mem_push.mp hx with hx | rfl
            · exact h.ids c old hOld x hx hTime
            · exact absurd hTime hOther
      · rename_i hc
        rw [hOthers c hc] at hx
        exact h.ids c g hg x hx hTime

theorem admissionGroups_enqueue {sub : Subscriber} {c : Bytes} {g : AdmissionGroup} (h : sub.admissionGroups c = some g) :
    ∃ g', (sub.enqueue e).admissionGroups c = some g' ∧ g'.clusterTime = g.clusterTime := by
  obtain ⟨-, -, -, -, hGroups⟩ := enqueue_keeps sub e
  rw [hGroups]
  cases hNow : sub.startFromNow with
  | false =>
    rw [groupsAfter, if_neg (by simp [hNow])]
    exact ⟨g, h, rfl⟩
  | true =>
    rw [groupsAfter_cases hNow rfl]
    split
    · rename_i hc
      rw [← hc, h]
      refine ⟨_, rfl, ?_⟩
      rw [Subscriber.joinGroup]
      split <;> rfl
    · exact ⟨g, h, rfl⟩

theorem Invariant.broadcast (hUnsent : s.unsent b = e :: rest) (h : s.Invariant) : (s.broadcast b e rest).Invariant := by
  obtain ⟨taken, dropped, hSplit, hPhase⟩ := h.phase
  have hb : e.backend = b := h.ordered.backend b e (by simp [history, hUnsent])
  have hKept := broadcast_kept hUnsent
  obtain ⟨dropped', hSplit'⟩ := hSplit.broadcast rest hb
  refine ⟨hKept.ordered rfl h.ordered, hKept.tracked h.tracked, h.grouped.broadcast hb, taken, dropped', hSplit', ?_⟩
  refine Phase.imp (s := s) rfl rfl rfl hKept.settled (fun floors hFloored => ?_) (fun _ _ => hKept.scanned) hPhase
  cases floors with
  | none => exact hFloored
  | some floors =>
    refine ⟨hFloored.1, fun c => ⟨(hFloored.2 c).1, fun t ht => ?_⟩⟩
    obtain ⟨g, hg, rfl⟩ := (hFloored.2 c).2 t ht
    exact admissionGroups_enqueue hg

end Broadcast

end Source

end Subscription

end Syntrix.Puller
