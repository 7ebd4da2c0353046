import Syntrix.Puller.SubscriptionSteps

/-! # Catching up

However far a subscription is behind, the steps of its own loop bring it to the live selection with an
empty queue, as long as its source stays available.
-/
namespace Syntrix.Puller

open Lib List

def SubscriptionAction.drives : SubscriptionAction → Bool
  | .write _ => false
  | .stop => false
  | _ => true

namespace Subscription

/-- Live, with nothing left in the queue. -/
structure CaughtUp (s : Subscription) : Prop where
  pc : s.pc = .selecting
  ch : s.sub.ch = []
  pending : s.sub.recoveryPending = false

def CatchesUp (s : Subscription) : Prop :=
  ∃ (actions : List SubscriptionAction) (t : Subscription),
    (∀ a ∈ actions, a.drives = true) ∧ actions.foldlM step s = some t ∧ t.CaughtUp

section Steps

variable {s t : Subscription} {a : SubscriptionAction}

theorem CaughtUp.catchesUp (h : s.CaughtUp) : s.CatchesUp := ⟨[], s, nofun, rfl, h⟩

theorem CatchesUp.after (hStep : s.step a = some t) (hDrives : a.drives = true) (h : t.CatchesUp) : s.CatchesUp := by
  obtain ⟨actions, u, hActions, hFold, hUp⟩ := h
  refine ⟨a :: actions, u, forall_mem_cons.mpr ⟨hDrives, hActions⟩, ?_, hUp⟩
  rw [foldlM_cons, hStep]
  exact hFold

theorem LoopTo.catchesUp (hLoop : LoopTo s a t) (h : t.CatchesUp) : s.CatchesUp :=
  .after hLoop.step (by cases hLoop <;> rfl) h

theorem LoopTo.announce_available (hPc : s.pc = .announcing) :
    LoopTo s (.check true) { emit { s with ready := true } .admitted .none with pc := .selecting } :=
  .announce hPc (Bool.and_false _)

end Steps

section Live

structure Calm (s : Subscription) (n : Nat) : Prop where
  pending : s.sub.recoveryPending = false
  catchUp : s.catchUp = false
  length : s.sub.ch.length = n

variable {s : Subscription} {n : Nat}

theorem Calm.take (h : s.Calm (n + 1)) {e : StoreChangeEvent} {rest : List StoreChangeEvent} (hCh : s.sub.ch = e :: rest) :
    (s.take e rest).Calm n := by
  obtain ⟨-, -, -, -, hQueue, hPending, -⟩ := deliver_frame { s with sub := { s.sub with ch := rest } } e
  refine ⟨hPending.trans h.pending, (deliver_flags _ _).1.trans h.catchUp, ?_⟩
  have hLength := h.length
  rw [hCh] at hLength
  rw [Subscription.take, hQueue]
  exact Nat.succ.inj hLength

variable (hSelect : ∀ t : Subscription, t.Calm n → t.pc = .selecting → t.CatchesUp)

include hSelect

theorem Calm.announcing (h : s.Calm n) (hPc : s.pc = .announcing) : s.CatchesUp := by
  refine (LoopTo.announce_available hPc).catchesUp (hSelect _ ⟨?_, ?_, ?_⟩ rfl)
  · simpa using h.pending
  · simpa using h.catchUp
  · simpa using h.length

theorem Calm.checking (h : s.Calm n) (hPc : s.pc = .checking) : s.CatchesUp :=
  (LoopTo.settle hPc h.pending).catchesUp (Calm.announcing hSelect { h with } rfl)

omit hSelect in
theorem Calm.settled (h : s.Calm 0) (hPc : s.pc = .checking) : s.CatchesUp :=
  h.checking (fun _ hCalm hSelecting =>
    CaughtUp.catchesUp ⟨hSelecting, eq_nil_of_length_eq_zero hCalm.length, hCalm.pending⟩) hPc

omit hSelect in
theorem Calm.admitting (h : s.Calm n) (hPc : s.pc = .admitting) : s.CatchesUp := by
  induction n generalizing s with
  | zero =>
    have hCh : s.sub.ch = [] := eq_nil_of_length_eq_zero h.length
    refine (LoopTo.look hPc h.pending).catchesUp (LoopTo.catchesUp (.picked rfl hCh) ?_)
    exact Calm.settled { h with } rfl
  | succ n ih =>
    obtain ⟨e, rest, hCh⟩ := exists_cons_of_length_eq_add_one h.length
    refine (LoopTo.look hPc h.pending).catchesUp (LoopTo.catchesUp (.pick rfl hCh) ?_)
    have hTake := Calm.take (s := { s with pc := .picking }) { h with } hCh
    exact ih { hTake with } rfl

theorem Calm.gate (h : s.Calm n) (hPc : s.pc = .gate) : s.CatchesUp := by
  cases hMonitored : s.monitored with
  | true =>
    refine (LoopTo.gate hPc hMonitored).catchesUp (LoopTo.catchesUp (.fence rfl) ?_)
    exact Calm.admitting { h with } rfl
  | false =>
    refine (LoopTo.unmonitored hPc hMonitored true).catchesUp ?_
    exact Calm.announcing hSelect { h with } rfl

theorem Calm.entering_of (h : s.Calm n) (hPc : s.pc = .entering) : s.CatchesUp := by
  refine (LoopTo.enterLive hPc).catchesUp ?_
  cases hReady : s.ready with
  | true => exact hSelect _ { h with } rfl
  | false => exact Calm.gate hSelect { h with } rfl

theorem Calm.top_of (h : s.Calm n) (hPc : s.pc = .top) : s.CatchesUp := by
  have hCheck : s.check true = { s with pc := .entering } := by simp [Subscription.check, h.catchUp]
  refine (LoopTo.check hPc true).catchesUp ?_
  rw [hCheck]
  exact Calm.entering_of hSelect { h with } rfl

omit hSelect

theorem Calm.selecting (h : s.Calm n) (hPc : s.pc = .selecting) : s.CatchesUp := by
  induction n generalizing s with
  | zero => exact CaughtUp.catchesUp ⟨hPc, eq_nil_of_length_eq_zero h.length, h.pending⟩
  | succ n ih =>
    obtain ⟨e, rest, hCh⟩ := exists_cons_of_length_eq_add_one h.length
    have hTake := h.take hCh
    refine (LoopTo.receive hPc hCh hTake.pending).catchesUp ?_
    exact Calm.top_of (fun _ => ih) { hTake with } rfl

theorem Calm.live (h : s.Calm n) (hLive : isLive s.pc = true) : s.CatchesUp := by
  cases hPc : s.pc with
  | entering => exact h.entering_of (fun _ => Calm.selecting) hPc
  | gate => exact h.gate (fun _ => Calm.selecting) hPc
  | fencing => exact (LoopTo.fence hPc).catchesUp (Calm.admitting { h with } rfl)
  | admitting => exact h.admitting hPc
  | picking =>
    cases hCh : s.sub.ch with
    | nil => exact (LoopTo.picked hPc hCh).catchesUp (Calm.settled ⟨h.pending, h.catchUp, by simp [hCh]⟩ rfl)
    | cons e rest =>
      have hTake := Calm.take (n := rest.length) ⟨h.pending, h.catchUp, by rw [hCh]; rfl⟩ hCh
      exact (LoopTo.pick hPc hCh).catchesUp (Calm.admitting { hTake with } rfl)
  | checking => exact h.checking (fun _ => Calm.selecting) hPc
  | announcing => exact h.announcing (fun _ => Calm.selecting) hPc
  | selecting => exact h.selecting hPc
  | _ =>
    rw [hPc] at hLive
    cases hLive

end Live

section Replay

variable {s : Subscription}

def remaining (backends : List Bytes) (iters : Iterators) : Nat := (backends.map fun b => (iters b).length).sum

theorem remaining_lt {backends : List Bytes} {iters : Iterators} {h : Head}
    (hHead : leastHead (heads backends iters) = some h) :
    remaining backends (Function.update iters h.backend h.rest) < remaining backends iters := by
  have hIter := leastHead_heads hHead
  have hMem : h.backend ∈ backends := by
    obtain ⟨b, hb, hSome⟩ := mem_filterMap.mp (leastHead_mem hHead)
    split at hSome
    · cases hSome
    · cases hSome
      exact hb
  refine sum_lt_sum _ _ (fun b _ => ?_) ⟨h.backend, hMem, ?_⟩
  · rcases eq_or_ne b h.backend with rfl | hb
    · simp [hIter]
    · rw [Function.update_of_ne hb]
  · simp [hIter]

/-- Where a replay leaves the loop: live, or at its head if the queue overflowed again. -/
def Replayed (s : Subscription) : Prop :=
  if s.sub.recoveryPending then s.pc = .top ∧ s.catchUp = true ∧ s.recovering = true
  else s.pc = .entering ∧ s.catchUp = false

section

variable (hEnd : ∀ t : Subscription, t.sub.recoveryPending = s.sub.recoveryPending → t.Replayed → t.CatchesUp)
include hEnd

theorem replaying_catchesUp {iters : Iterators} (hPc : s.pc = .replaying iters) (hCatchUp : s.catchUp = true) :
    s.CatchesUp := by
  generalize hCount : remaining s.backends iters = n
  induction n using Nat.strong_induction_on generalizing s iters with
  | _ n ih =>
    refine (LoopTo.read hPc).catchesUp ?_
    unfold Subscription.read
    split
    · rename_i head hHead
      have hLess := remaining_lt hHead
      rw [hCount] at hLess
      dsimp only
      split
      · obtain ⟨hFrame, hBackends, -, -, -, hPending, -⟩ :=
          deliver_frame { s with pc := .replaying (Function.update iters head.backend head.rest) } head.event
        refine ih _ hLess (fun t ht => hEnd t (ht.trans hPending)) hFrame ((deliver_flags _ _).1.trans hCatchUp) ?_
        rw [hBackends]
      · exact ih _ hLess hEnd rfl hCatchUp rfl
    · split
      · rename_i hPending
        refine hEnd _ rfl ?_
        rw [Replayed, if_pos hPending]
        exact ⟨rfl, hCatchUp, rfl⟩
      · rename_i hPending
        refine hEnd _ rfl ?_
        rw [Replayed, if_neg hPending]
        exact ⟨rfl, rfl⟩

theorem opening_catchesUp {floors : Option (Bytes → Option ClusterTime)} {iters : Iterators} {todo : List Bytes}
    (hPc : s.pc = .opening floors iters todo) (hCatchUp : s.catchUp = true) : s.CatchesUp := by
  generalize hCount : todo.length = n
  induction n using Nat.strong_induction_on generalizing s iters todo with
  | _ n ih =>
    cases todo with
    | nil => exact (LoopTo.merge hPc).catchesUp (replaying_catchesUp hEnd rfl hCatchUp)
    | cons b rest =>
      refine (LoopTo.openScan hPc mem_cons_self).catchesUp (ih _ ?_ hEnd rfl hCatchUp rfl)
      rw [filter_cons_of_neg (by simp), ← hCount]
      exact Nat.lt_succ_of_le (length_filter_le _ _)

theorem snapshot_catchesUp (hPc : s.pc = .snapshot) (hCatchUp : s.catchUp = true) : s.CatchesUp :=
  (LoopTo.floors hPc).catchesUp (opening_catchesUp hEnd rfl hCatchUp)

end

theorem beginning_catchesUp (hPc : s.pc = .beginning) (hCatchUp : s.catchUp = true) : s.CatchesUp := by
  refine (LoopTo.beginRecovery hPc).catchesUp (snapshot_catchesUp (fun t hPending hAt => ?_) rfl hCatchUp)
  have hFalse : t.sub.recoveryPending = false := hPending
  rw [Replayed, if_neg (by simp [hFalse])] at hAt
  exact Calm.live ⟨hFalse, hAt.2, rfl⟩ (by rw [hAt.1]; rfl)

theorem draining_catchesUp (hPc : s.pc = .draining) (hCatchUp : s.catchUp = true) : s.CatchesUp := by
  generalize hCh : s.sub.ch = queue
  induction queue generalizing s with
  | nil => exact (LoopTo.drained hPc hCh).catchesUp (beginning_catchesUp rfl hCatchUp)
  | cons e rest ih => exact (LoopTo.drain hPc hCh).catchesUp (ih hPc hCatchUp rfl)

theorem overflow_catchesUp (hPc : s.pc = .top) (hCatchUp : s.catchUp = true) (hRecovering : s.recovering = true) :
    s.CatchesUp := by
  have hCheck : s.check true = { s.emit .replaying .none with pc := .draining } := by
    simp [Subscription.check, hCatchUp, hRecovering]
  refine (LoopTo.check hPc true).catchesUp ?_
  rw [hCheck]
  exact draining_catchesUp rfl (by simpa using hCatchUp)

theorem Replayed.catchesUp (h : s.Replayed) : s.CatchesUp := by
  cases hPending : s.sub.recoveryPending with
  | true =>
    rw [Replayed, if_pos hPending] at h
    exact overflow_catchesUp h.1 h.2.1 h.2.2
  | false =>
    rw [Replayed, if_neg (by simp [hPending])] at h
    exact Calm.live ⟨hPending, h.2, rfl⟩ (by rw [h.1]; rfl)

theorem recover_catchesUp (s : Subscription) : s.recover.CatchesUp :=
  overflow_catchesUp rfl (recover_catchUp s) (by simp [recover])

end Replay

section Overflow

variable {s : Subscription}

theorem woken_catchesUp (hPc : s.pc = .selecting) (hRecovery : s.sub.recovery = true) : s.CatchesUp :=
  (LoopTo.wake hPc hRecovery).catchesUp (recover_catchesUp _)

theorem announcing_catchesUp (hPc : s.pc = .announcing) (hRecovery : s.sub.recovery = true) : s.CatchesUp := by
  refine (LoopTo.announce_available hPc).catchesUp (woken_catchesUp rfl ?_)
  simpa using hRecovery

theorem checking_catchesUp (hPc : s.pc = .checking) (hPending : s.sub.recoveryPending = true) : s.CatchesUp :=
  (LoopTo.abandon hPc hPending).catchesUp (recover_catchesUp s)

theorem admitting_catchesUp (hPc : s.pc = .admitting) (hPending : s.sub.recoveryPending = true) : s.CatchesUp :=
  (LoopTo.overflowed hPc hPending).catchesUp (checking_catchesUp rfl hPending)

theorem gate_catchesUp (hPc : s.pc = .gate) (hPending : s.sub.recoveryPending = true) (hRecovery : s.sub.recovery = true) :
    s.CatchesUp := by
  cases hMonitored : s.monitored with
  | true =>
    refine (LoopTo.gate hPc hMonitored).catchesUp (LoopTo.catchesUp (.fence rfl) ?_)
    exact admitting_catchesUp rfl hPending
  | false => exact (LoopTo.unmonitored hPc hMonitored true).catchesUp (announcing_catchesUp rfl hRecovery)

theorem overflowed_catchesUp (hLive : isLive s.pc = true) (hPending : s.sub.recoveryPending = true)
    (hRecovery : s.sub.recovery = true) : s.CatchesUp := by
  cases hPc : s.pc with
  | entering =>
    refine (LoopTo.enterLive hPc).catchesUp ?_
    cases hReady : s.ready with
    | true => exact woken_catchesUp rfl hRecovery
    | false => exact gate_catchesUp rfl hPending hRecovery
  | gate => exact gate_catchesUp hPc hPending hRecovery
  | fencing => exact (LoopTo.fence hPc).catchesUp (admitting_catchesUp rfl hPending)
  | admitting => exact admitting_catchesUp hPc hPending
  | picking =>
    cases hCh : s.sub.ch with
    | nil => exact (LoopTo.picked hPc hCh).catchesUp (checking_catchesUp rfl hPending)
    | cons e rest =>
      obtain ⟨-, -, -, -, -, hKept, -⟩ := deliver_frame { s with sub := { s.sub with ch := rest } } e
      exact (LoopTo.pick hPc hCh).catchesUp (admitting_catchesUp rfl (hKept.trans hPending))
  | checking => exact checking_catchesUp hPc hPending
  | announcing => exact announcing_catchesUp hPc hRecovery
  | selecting => exact woken_catchesUp hPc hRecovery
  | _ =>
    rw [hPc] at hLive
    cases hLive

end Overflow

section Main

variable {s : Subscription}

theorem Flags.live_catchesUp (h : s.Flags) (hLive : isLive s.pc = true) : s.CatchesUp := by
  cases hPending : s.sub.recoveryPending with
  | true => exact overflowed_catchesUp hLive hPending (h.wake (h.live hLive) hPending)
  | false => exact Calm.live ⟨hPending, h.live hLive, rfl⟩ hLive

theorem Flags.top_catchesUp (h : s.Flags) (hPc : s.pc = .top) : s.CatchesUp := by
  have hChecked := h.check hPc true
  refine (LoopTo.check hPc true).catchesUp ?_
  cases hCatchUp : s.catchUp with
  | true =>
    have hCheck : s.check true = { s.emit .replaying .none with pc := if s.recovering then .draining else .snapshot } := by
      simp [Subscription.check, hCatchUp]
    rw [hCheck]
    cases hRecovering : s.recovering with
    | true => exact draining_catchesUp rfl (by simpa using hCatchUp)
    | false => exact snapshot_catchesUp (fun _ _ => Replayed.catchesUp) rfl (by simpa using hCatchUp)
  | false =>
    have hCheck : s.check true = { s with pc := .entering } := by simp [Subscription.check, hCatchUp]
    rw [hCheck] at hChecked ⊢
    exact hChecked.live_catchesUp rfl

theorem Flags.catchesUp (h : s.Flags) (hRunning : s.pc ≠ .stopped) : s.CatchesUp := by
  have hReplay := h.replay
  cases hPc : s.pc with
  | registered => exact (LoopTo.launch hPc).catchesUp ((h.loop (.launch hPc)).top_catchesUp rfl)
  | top => exact h.top_catchesUp hPc
  | waiting => exact (LoopTo.resume hPc true).catchesUp ((h.loop (.resume hPc true)).top_catchesUp rfl)
  | draining => exact draining_catchesUp hPc (hReplay (by rw [hPc]; rfl))
  | beginning => exact beginning_catchesUp hPc (hReplay (by rw [hPc]; rfl))
  | snapshot => exact snapshot_catchesUp (fun _ _ => Replayed.catchesUp) hPc (hReplay (by rw [hPc]; rfl))
  | opening floors iters todo =>
    exact opening_catchesUp (fun _ _ => Replayed.catchesUp) hPc (hReplay (by rw [hPc]; rfl))
  | replaying iters => exact replaying_catchesUp (fun _ _ => Replayed.catchesUp) hPc (hReplay (by rw [hPc]; rfl))
  | stopped => exact absurd hPc hRunning
  | _ => exact h.live_catchesUp (by rw [hPc]; rfl)

end Main

end Subscription

end Syntrix.Puller
