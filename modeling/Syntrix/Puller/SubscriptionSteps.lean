import Syntrix.Puller.Loop

/-! # Steps of a subscription

What one step can do, and what every step keeps: the invariant of the phases and the flags by which the
loop and the subscriber agree on an overflow.
-/
namespace Syntrix.Puller

open Lib Function

namespace Subscription

section Runs

variable {s s' : Subscription}

/-- Capture keeps its order, and replays read on only past what was broadcast. -/
def Allowed (s : Subscription) : SubscriptionAction → Prop
  | .write e => s.Captures e
  | .read => s.ReadsLast
  | _ => True

@[simp] theorem emit_sub (s : Subscription) (state : AdmissionState) (reason : AdmissionReason) :
    (s.emit state reason).sub = s.sub := (Same.emit s state reason).sub

@[simp] theorem emit_catchUp (s : Subscription) (state : AdmissionState) (reason : AdmissionReason) :
    (s.emit state reason).catchUp = s.catchUp := (emit_frame s state reason).1

@[simp] theorem emit_recovering (s : Subscription) (state : AdmissionState) (reason : AdmissionReason) :
    (s.emit state reason).recovering = s.recovering := (emit_frame s state reason).2.1

@[simp] theorem recover_sub (s : Subscription) : s.recover.sub = s.sub := (recover_same s).sub

theorem Invariant.check (h : s.Invariant) (hPc : s.pc = .top) (available : Bool) : (s.check available).Invariant := by
  have hTop : ∀ taken, s.Phase taken → s.catchUp = false → s.Settled taken := by
    intro taken hPhase
    unfold Phase at hPhase
    rwa [hPc] at hPhase
  unfold Subscription.check
  split
  · split
    · exact h.same (.pc s .waiting) fun taken hPhase => hTop taken hPhase
    have hFlags : Same s { s with generation := s.generation + 1, ready := false, enteredLive := false } :=
      ⟨rfl, rfl, rfl, rfl, rfl, rfl, rfl⟩
    have hSame := (hFlags.trans (.emit _ .recovering .sourceUnavailable)).trans (.pc _ .waiting)
    exact h.same hSame fun taken hPhase hFalse => hSame.kept.settled (hTop taken hPhase (by simpa using hFalse))
  · split
    · refine h.same ((Same.emit s .replaying .none).trans (.pc _ _)) fun taken _ => ?_
      cases hRecovering : s.recovering with
      | true | false => exact trivial
    · rename_i hCatchUp
      exact h.same (.pc s .entering) fun taken hPhase => hTop taken hPhase (by simpa using hCatchUp)

theorem Invariant.launch (h : s.Invariant) (hPc : s.pc = .registered) : s.launch.Invariant := by
  have hFlags : Same s { s with
      recovering := s.sub.recoveryPending, catchUp := s.after.isSome || s.sub.recoveryPending } :=
    ⟨rfl, rfl, rfl, rfl, rfl, rfl, rfl⟩
  have hSame := (hFlags.trans (.emit _ .starting .none)).trans (.pc _ .top)
  refine h.same hSame fun taken hPhase hFalse => hSame.kept.settled ?_
  have hCatchUp : s.after = none ∧ s.sub.recoveryPending = false := by simpa [Subscription.launch] using hFalse
  unfold Phase at hPhase
  rw [hPc] at hPhase
  exact hPhase hCatchUp.1

theorem deliver_flags (s : Subscription) (e : StoreChangeEvent) :
    (s.deliver e).catchUp = s.catchUp ∧ (s.deliver e).recovering = s.recovering ∧
      (s.deliver e).sub.recovery = s.sub.recovery := by
  unfold deliver
  split <;> exact ⟨rfl, rfl, rfl⟩

def isReplay : Pc → Bool
  | .draining | .beginning | .snapshot | .opening _ _ _ | .replaying _ => true
  | _ => false

structure Flags (s : Subscription) : Prop where
  token : s.sub.recovery = true → s.sub.recoveryPending = true
  wake : s.catchUp = false → s.sub.recoveryPending = true → s.sub.recovery = true
  live : isLive s.pc = true → s.catchUp = false
  replay : isReplay s.pc = true → s.catchUp = true
  top : s.pc = .top ∨ s.pc = .waiting → s.catchUp = true → s.recovering = true → s.sub.recoveryPending = true
  draining : s.pc = .draining → s.sub.recoveryPending = true
  beginning : s.pc = .beginning → s.sub.recoveryPending = true ∧ s.sub.ch = []

theorem Flags.at_top (hPc : s.pc = .top ∨ s.pc = .waiting) (hToken : s.sub.recovery = true → s.sub.recoveryPending = true)
    (hWake : s.catchUp = false → s.sub.recoveryPending = true → s.sub.recovery = true)
    (hTop : s.catchUp = true → s.recovering = true → s.sub.recoveryPending = true) : s.Flags := by
  refine ⟨hToken, hWake, fun h => ?_, fun h => ?_, fun _ => hTop, fun h => ?_, fun h => ?_⟩
  all_goals
    obtain hPc | hPc := hPc
    all_goals
      rw [hPc] at h
      cases h

theorem Flags.at_live (hLive : isLive s.pc = true) (hCatchUp : s.catchUp = false)
    (hToken : s.sub.recovery = true → s.sub.recoveryPending = true)
    (hWake : s.sub.recoveryPending = true → s.sub.recovery = true) : s.Flags := by
  refine ⟨hToken, fun _ => hWake, fun _ => hCatchUp, fun h => ?_, fun h => ?_, fun h => ?_, fun h => ?_⟩
  · cases hPc : s.pc with
    | draining | beginning | snapshot | opening _ _ _ | replaying _ =>
      rw [hPc] at hLive
      cases hLive
    | _ =>
      rw [hPc] at h
      cases h
  · obtain h | h := h
    all_goals
      rw [h] at hLive
      cases hLive
  all_goals
    rw [h] at hLive
    cases hLive

theorem Flags.at_replay (hReplay : isReplay s.pc = true) (hPc : s.pc ≠ .draining ∧ s.pc ≠ .beginning)
    (hCatchUp : s.catchUp = true) (hToken : s.sub.recovery = true → s.sub.recoveryPending = true) : s.Flags := by
  refine ⟨hToken, fun h => ?_, fun h => ?_, fun _ => hCatchUp, fun h => ?_, fun h => absurd h hPc.1,
    fun h => absurd h hPc.2⟩
  · exact absurd (hCatchUp.symm.trans h) (by decide)
  · cases hPc : s.pc with
    | draining | beginning | snapshot | opening _ _ _ | replaying _ =>
      rw [hPc] at h
      cases h
    | _ =>
      rw [hPc] at hReplay
      cases hReplay
  · obtain h | h := h
    all_goals
      rw [h] at hReplay
      cases hReplay

theorem Flags.recover (hPending : s.sub.recoveryPending = true) : s.recover.Flags := by
  refine .at_top (.inl rfl) (fun _ => ?_) (fun hFalse => ?_) fun _ _ => ?_
  · rw [recover_sub]
    exact hPending
  · rw [recover_catchUp] at hFalse
    cases hFalse
  · rw [recover_sub]
    exact hPending

inductive LoopTo (s : Subscription) : SubscriptionAction → Subscription → Prop
  | launch (hPc : s.pc = .registered) : LoopTo s .launch s.launch
  | check (hPc : s.pc = .top) (available : Bool) : LoopTo s (.check available) (s.check available)
  | resume (hPc : s.pc = .waiting) (available : Bool) : LoopTo s (.tick available) { s with pc := .top }
  | drained (hPc : s.pc = .draining) (hCh : s.sub.ch = []) : LoopTo s .drain { s with pc := .beginning }
  | drain (hPc : s.pc = .draining) {e : StoreChangeEvent} {rest : List StoreChangeEvent} (hCh : s.sub.ch = e :: rest) :
      LoopTo s .drain { s with sub := { s.sub with ch := rest } }
  | beginRecovery (hPc : s.pc = .beginning) :
      LoopTo s .beginRecovery { s with sub := s.sub.beginRecovery, pc := .snapshot }
  | floors (hPc : s.pc = .snapshot) :
      LoopTo s .floors { s with
        pc := .opening (if s.sub.startFromNow then some s.sub.admissionFloors else none) (fun _ => []) s.backends }
  | openScan {floors : Option (Bytes → Option ClusterTime)} {iters : Iterators} {todo : List Bytes}
      (hPc : s.pc = .opening floors iters todo) {b : Bytes} (hTodo : b ∈ todo) :
      LoopTo s (.openScan b) { s with
        pc := .opening floors (update iters b (s.replayScan floors b)) (todo.filter fun x => x ≠ b) }
  | merge {floors : Option (Bytes → Option ClusterTime)} {iters : Iterators} (hPc : s.pc = .opening floors iters []) :
      LoopTo s .merge { s with pc := .replaying iters }
  | read {iters : Iterators} (hPc : s.pc = .replaying iters) : LoopTo s .read (s.read iters)
  | enterLive (hPc : s.pc = .entering) :
      LoopTo s .enterLive { s with enteredLive := true, pc := if s.ready then .selecting else .gate }
  | closed (hPc : s.pc = .gate) (hMonitored : s.monitored = true) : LoopTo s (.check false) { s with pc := .top }
  | gate (hPc : s.pc = .gate) (hMonitored : s.monitored = true) : LoopTo s (.check true) { s with pc := .fencing }
  | unmonitored (hPc : s.pc = .gate) (hMonitored : s.monitored = false) (available : Bool) :
      LoopTo s (.check available) { s with pc := .announcing }
  | fence (hPc : s.pc = .fencing) : LoopTo s .fence { s with fence := s.broadcasts, pc := .admitting }
  | overflowed (hPc : s.pc = .admitting) (hPending : s.sub.recoveryPending = true) : LoopTo s .look { s with pc := .checking }
  | look (hPc : s.pc = .admitting) (hPending : s.sub.recoveryPending = false) : LoopTo s .look { s with pc := .picking }
  | picked (hPc : s.pc = .picking) (hCh : s.sub.ch = []) : LoopTo s .pick { s with pc := .checking }
  | pick (hPc : s.pc = .picking) {e : StoreChangeEvent} {rest : List StoreChangeEvent} (hCh : s.sub.ch = e :: rest) :
      LoopTo s .pick { s.take e rest with pc := .admitting }
  | abandon (hPc : s.pc = .checking) (hPending : s.sub.recoveryPending = true) : LoopTo s .settle s.recover
  | settle (hPc : s.pc = .checking) (hPending : s.sub.recoveryPending = false) : LoopTo s .settle { s with pc := .announcing }
  | unavailable (hPc : s.pc = .announcing) (hMonitored : s.monitored = true) : LoopTo s (.check false) { s with pc := .top }
  | announce (hPc : s.pc = .announcing) {available : Bool} (hOpen : (s.monitored && !available) = false) :
      LoopTo s (.check available) { emit { s with ready := true } .admitted .none with pc := .selecting }
  | wake (hPc : s.pc = .selecting) (hRecovery : s.sub.recovery = true) :
      LoopTo s .wake (recover { s with sub := { s.sub with recovery := false } })
  | tick (hPc : s.pc = .selecting) (available : Bool) :
      LoopTo s (.tick available) { s with ready := s.ready && !(s.monitored && available), pc := .top }
  | overflow (hPc : s.pc = .selecting) {e : StoreChangeEvent} {rest : List StoreChangeEvent} (hCh : s.sub.ch = e :: rest)
      (hPending : (s.take e rest).sub.recoveryPending = true) : LoopTo s .receive (s.take e rest).recover
  | receive (hPc : s.pc = .selecting) {e : StoreChangeEvent} {rest : List StoreChangeEvent} (hCh : s.sub.ch = e :: rest)
      (hPending : (s.take e rest).sub.recoveryPending = false) :
      LoopTo s .receive { s.take e rest with pc := .top }

variable {a : SubscriptionAction}

theorem run_spec (h : s.run s.pc a = some s') : LoopTo s a s' := by
  unfold Subscription.run at h
  split at h
  · rename_i hPc
    cases h
    exact .launch hPc
  · rename_i available hPc
    cases h
    exact .check hPc available
  · rename_i available hPc
    cases h
    exact .resume hPc available
  · rename_i hPc
    split at h
    · rename_i hCh
      cases h
      exact .drained hPc hCh
    · rename_i hCh
      cases h
      exact .drain hPc hCh
  · rename_i hPc
    cases h
    exact .beginRecovery hPc
  · rename_i hPc
    cases h
    exact .floors hPc
  · rename_i floors iters todo b hPc
    split at h
    · rename_i hTodo
      cases h
      exact .openScan hPc hTodo
    · cases h
  · rename_i floors iters hPc
    cases h
    exact .merge hPc
  · rename_i iters hPc
    cases h
    exact .read hPc
  · rename_i hPc
    cases h
    exact .enterLive hPc
  · rename_i available hPc
    cases hMonitored : s.monitored with
    | true =>
      rw [if_pos hMonitored] at h
      cases available with
      | true =>
        cases h
        exact .gate hPc hMonitored
      | false =>
        cases h
        exact .closed hPc hMonitored
    | false =>
      rw [if_neg (by simp [hMonitored])] at h
      cases h
      exact .unmonitored hPc hMonitored available
  · rename_i hPc
    cases h
    exact .fence hPc
  · rename_i hPc
    cases hPending : s.sub.recoveryPending with
    | true =>
      rw [hPending] at h
      cases h
      exact .overflowed hPc hPending
    | false =>
      rw [hPending] at h
      cases h
      exact .look hPc hPending
  · rename_i hPc
    split at h
    · rename_i hCh
      cases h
      exact .picked hPc hCh
    · rename_i hCh
      cases h
      exact .pick hPc hCh
  · rename_i hPc
    cases hPending : s.sub.recoveryPending with
    | true =>
      rw [hPending, if_pos rfl] at h
      cases h
      exact .abandon hPc hPending
    | false =>
      rw [hPending, if_neg (by decide)] at h
      cases h
      exact .settle hPc hPending
  · rename_i available hPc
    split at h
    · rename_i hNot
      cases h
      obtain ⟨hMonitored, rfl⟩ : s.monitored = true ∧ available = false := by simpa using hNot
      exact .unavailable hPc hMonitored
    · rename_i hOpen
      cases h
      exact .announce hPc (by simpa using hOpen)
  · rename_i hPc
    split at h
    · rename_i hRecovery
      cases h
      exact .wake hPc hRecovery
    · cases h
  · rename_i available hPc
    cases h
    exact .tick hPc available
  · rename_i hPc
    split at h
    · cases h
    rename_i e rest hCh
    dsimp only at h
    cases hPending : (s.take e rest).sub.recoveryPending with
    | true =>
      rw [hPending, if_pos rfl] at h
      cases h
      exact .overflow hPc hCh hPending
    | false =>
      rw [hPending, if_neg (by decide)] at h
      cases h
      exact .receive hPc hCh hPending
  · cases h

theorem LoopTo.run (h : LoopTo s a s') : s.run s.pc a = some s' := by
  cases h with
  | launch hPc | check hPc _ | resume hPc _ | beginRecovery hPc | floors hPc | merge hPc | read hPc | enterLive hPc
  | fence hPc | tick hPc _ =>
    rw [hPc]
    rfl
  | drained hPc hCh | drain hPc hCh | picked hPc hCh | pick hPc hCh =>
    unfold Subscription.run
    rw [hPc, hCh]
  | openScan hPc hTodo =>
    rw [hPc]
    exact if_pos hTodo
  | closed hPc hMonitored | gate hPc hMonitored =>
    rw [hPc]
    exact if_pos hMonitored
  | unmonitored hPc hMonitored available =>
    rw [hPc]
    exact if_neg (by simp [hMonitored])
  | overflowed hPc hPending | look hPc hPending | settle hPc hPending | abandon hPc hPending =>
    unfold Subscription.run
    rw [hPc, hPending]
    rfl
  | unavailable hPc hMonitored =>
    rw [hPc]
    exact if_pos (by simp [hMonitored])
  | announce hPc hOpen =>
    rw [show s.run s.pc = s.run .announcing by rw [hPc]]
    exact if_neg (Bool.eq_false_iff.mp hOpen)
  | wake hPc hRecovery =>
    rw [show s.run s.pc = s.run .selecting by rw [hPc]]
    exact if_pos hRecovery
  | overflow hPc hCh hPending | receive hPc hCh hPending =>
    unfold Subscription.run
    rw [hPc, hCh]
    dsimp only
    rw [hPending]
    rfl

theorem LoopTo.step (h : LoopTo s a s') : s.step a = some s' := by
  have hRun := h.run
  cases h <;> exact hRun

theorem Flags.same (h : s.Flags) (hSub : s'.sub = s.sub) (hLive : isLive s.pc = true) (hLive' : isLive s'.pc = true)
    (hCatchUp : s'.catchUp = s.catchUp) : s'.Flags :=
  .at_live hLive' (hCatchUp.trans (h.live hLive)) (hSub ▸ h.token) (hSub ▸ h.wake (h.live hLive))

theorem Flags.back (h : s.Flags) (hSub : s'.sub = s.sub) (hLive : isLive s.pc = true) (hPc : s'.pc = .top)
    (hCatchUp : s'.catchUp = s.catchUp) : s'.Flags := by
  refine .at_top (.inl hPc) (hSub ▸ h.token) (fun _ => hSub ▸ h.wake (h.live hLive)) fun hTrue => ?_
  rw [hCatchUp, h.live hLive] at hTrue
  cases hTrue

theorem Flags.take (h : s.Flags) (e : StoreChangeEvent) (rest : List StoreChangeEvent) (hPc : isLive s.pc = true) :
    (s.take e rest).Flags := by
  obtain ⟨hCatchUp, -, hRecovery⟩ := deliver_flags { s with sub := { s.sub with ch := rest } } e
  obtain ⟨hFrame, -, -, -, -, hPending, -⟩ := deliver_frame { s with sub := { s.sub with ch := rest } } e
  refine .at_live (by rw [Subscription.take, hFrame]; exact hPc) (hCatchUp.trans (h.live hPc)) ?_ ?_
  · rw [Subscription.take, hRecovery, hPending]
    exact h.token
  · rw [Subscription.take, hRecovery, hPending]
    exact h.wake (h.live hPc)

theorem Flags.check (h : s.Flags) (hPc : s.pc = .top) (available : Bool) : (s.check available).Flags := by
  have hToken := h.token
  have hWake := h.wake
  have hTop := h.top (.inl hPc)
  unfold Subscription.check
  split
  · split
    · exact .at_top (.inr rfl) hToken hWake hTop
    · exact .at_top (.inr rfl) (by simpa using hToken) (by simpa using hWake) (by simpa using hTop)
  · split
    · rename_i hCatchUp
      cases hRecovering : s.recovering with
      | true =>
        have hPending := hTop hCatchUp hRecovering
        refine ⟨by simpa using hToken, by simpa using hWake, nofun, ?_, ?_, ?_, nofun⟩
        · intro _
          simpa using hCatchUp
        · rintro (hPc | hPc) <;> cases hPc
        · simpa using hPending
      | false => exact .at_replay rfl ⟨nofun, nofun⟩ (by simpa using hCatchUp) (by simpa using hToken)
    · rename_i hCatchUp
      have hFalse : s.catchUp = false := by simpa using hCatchUp
      exact .at_live rfl hFalse hToken (hWake hFalse)

theorem Flags.read (h : s.Flags) {iters : Iterators} (hPc : s.pc = .replaying iters) : (s.read iters).Flags := by
  have hCatchUp := h.replay (by rw [hPc]; rfl)
  unfold Subscription.read
  split
  · rename_i head hHead
    dsimp only
    split
    · obtain ⟨hFrame, -, -, -, -, hPending, -⟩ :=
        deliver_frame { s with pc := .replaying (update iters head.backend head.rest) } head.event
      obtain ⟨hFlag, -, hRecovery⟩ :=
        deliver_flags { s with pc := .replaying (update iters head.backend head.rest) } head.event
      refine .at_replay ?_ ?_ (hFlag.trans hCatchUp) ?_
      · rw [hFrame]
        rfl
      · rw [hFrame]
        exact ⟨nofun, nofun⟩
      · rw [hPending, hRecovery]
        exact h.token
    · exact .at_replay rfl ⟨nofun, nofun⟩ hCatchUp h.token
  · split
    · rename_i hPending
      exact .at_top (.inl rfl) h.token (fun hFalse => absurd (hCatchUp.symm.trans hFalse) (by decide)) fun _ _ => hPending
    · rename_i hPending
      exact .at_live rfl rfl h.token fun hTrue => absurd hTrue hPending

theorem Flags.loop (h : s.Flags) (hStep : LoopTo s a s') : s'.Flags := by
  have hToken := h.token
  cases hStep with
  | launch hPc =>
    refine .at_top (.inl rfl) ?_ ?_ ?_
    · simpa [Subscription.launch] using hToken
    · simp +contextual [Subscription.launch]
    · simp [Subscription.launch]
  | check hPc available => exact h.check hPc available
  | resume hPc available => exact .at_top (.inl rfl) hToken h.wake (h.top (.inr hPc))
  | drained hPc hCh =>
    refine ⟨hToken, h.wake, nofun, fun _ => h.replay (by rw [hPc]; rfl), ?_, nofun, fun _ => ⟨h.draining hPc, hCh⟩⟩
    rintro (hPc | hPc) <;> cases hPc
  | drain hPc hCh =>
    refine ⟨hToken, h.wake, h.live, h.replay, h.top, h.draining, fun hBeginning => ?_⟩
    rw [show s.pc = .beginning from hBeginning] at hPc
    cases hPc
  | beginRecovery hPc => exact .at_replay rfl ⟨nofun, nofun⟩ (h.replay (by rw [hPc]; rfl)) nofun
  | floors hPc | openScan hPc _ | merge hPc => exact .at_replay rfl ⟨nofun, nofun⟩ (h.replay (by rw [hPc]; rfl)) hToken
  | read hPc => exact h.read hPc
  | enterLive hPc =>
    refine h.same rfl (by rw [hPc]; rfl) ?_ rfl
    cases hReady : s.ready <;> rfl
  | closed hPc _ | unavailable hPc _ | tick hPc available => exact h.back rfl (by rw [hPc]; rfl) rfl rfl
  | gate hPc _ | unmonitored hPc _ _ | fence hPc | overflowed hPc _ | look hPc _ | picked hPc _ | settle hPc _ =>
    exact h.same rfl (by rw [hPc]; rfl) rfl rfl
  | @pick hPc e rest hCh =>
    have hLive : isLive s.pc = true := by rw [hPc]; rfl
    refine (h.take e rest hLive).same rfl ?_ rfl rfl
    rw [Subscription.take, (deliver_frame _ _).1]
    exact hLive
  | abandon hPc hPending | overflow hPc hCh hPending => exact .recover hPending
  | announce hPc _ => exact h.same (by simp) (by rw [hPc]; rfl) rfl (by simp)
  | wake hPc hRecovery => exact .recover (hToken hRecovery)
  | @receive hPc e rest hCh _ =>
    have hLive : isLive s.pc = true := by rw [hPc]; rfl
    refine (h.take e rest hLive).back rfl ?_ rfl rfl
    rw [Subscription.take, (deliver_frame _ _).1]
    exact hLive

theorem Invariant.loop (h : s.Invariant) (hFlags : s.Flags) (hAllowed : s.Allowed a) (hStep : LoopTo s a s') : s'.Invariant := by
  have hLive := h.live
  cases hStep with
  | launch hPc => exact h.launch hPc
  | check hPc available => exact h.check hPc available
  | resume hPc available =>
    refine h.same (.pc s .top) fun taken hPhase => ?_
    unfold Phase at hPhase
    rwa [hPc] at hPhase
  | drained hPc hCh => exact h.same (.pc s .beginning) fun _ _ => trivial
  | drain hPc hCh => exact h.drain hCh hPc
  | beginRecovery hPc => exact h.beginRecovery (hFlags.beginning hPc).2
  | floors hPc => exact h.floors
  | openScan hPc _ => exact h.openScan hPc _
  | merge hPc =>
    refine h.same (.pc s _) fun taken hPhase => ?_
    unfold Phase at hPhase
    rw [hPc] at hPhase
    exact fun b => (Same.pc s _).kept.scanned (hPhase.2 b List.not_mem_nil)
  | read hPc => exact h.read hPc hAllowed
  | enterLive hPc =>
    have hSame : Same s { s with enteredLive := true } := ⟨rfl, rfl, rfl, rfl, rfl, rfl, rfl⟩
    refine ((hLive (by rw [hPc]; rfl)).same hSame).goto ?_
    cases hReady : s.ready <;> rfl
  | closed hPc _ | unavailable hPc _ => exact (hLive (by rw [hPc]; rfl)).top
  | gate hPc _ | unmonitored hPc _ _ | overflowed hPc _ | look hPc _ | picked hPc _ | settle hPc _ =>
    exact (hLive (by rw [hPc]; rfl)).goto rfl
  | fence hPc =>
    have hSame : Same s { s with fence := s.broadcasts } := ⟨rfl, rfl, rfl, rfl, rfl, rfl, rfl⟩
    exact ((hLive (by rw [hPc]; rfl)).same hSame).goto rfl
  | pick hPc hCh => exact ((hLive (by rw [hPc]; rfl)).take hCh).goto rfl
  | abandon hPc _ => exact (hLive (by rw [hPc]; rfl)).recover
  | announce hPc _ =>
    have hSame : Same s { s with ready := true } := ⟨rfl, rfl, rfl, rfl, rfl, rfl, rfl⟩
    exact ((hLive (by rw [hPc]; rfl)).same (hSame.trans (.emit _ .admitted .none))).goto rfl
  | wake hPc hRecovery => exact (hLive (by rw [hPc]; rfl)).woken.recover
  | tick hPc available =>
    have hSame : Same s { s with ready := s.ready && !(s.monitored && available) } := ⟨rfl, rfl, rfl, rfl, rfl, rfl, rfl⟩
    exact ((hLive (by rw [hPc]; rfl)).same hSame).top
  | overflow hPc hCh _ => exact ((hLive (by rw [hPc]; rfl)).take hCh).recover
  | receive hPc hCh _ => exact ((hLive (by rw [hPc]; rfl)).take hCh).top

theorem step_cases (h : s.step a = some s') :
    (∃ e, a = .write e ∧ s' = s.written e) ∨
      (∃ b e rest, a = .broadcast b ∧ s.unsent b = e :: rest ∧ s' = s.broadcast b e rest) ∨
      (a = .stop ∧ s' = { s with pc := .stopped }) ∨ LoopTo s a s' := by
  cases a with
  | write e => exact .inl ⟨e, rfl, (Option.some.inj h).symm⟩
  | broadcast b =>
    simp only [step] at h
    split at h
    · cases h
    · rename_i e rest hUnsent
      exact .inr (.inl ⟨b, e, rest, rfl, hUnsent, (Option.some.inj h).symm⟩)
  | stop => exact .inr (.inr (.inl ⟨rfl, (Option.some.inj h).symm⟩))
  | _ => exact .inr (.inr (.inr (run_spec h)))

theorem Flags.broadcast (h : s.Flags) (b : Bytes) (e : StoreChangeEvent) (rest : List StoreChangeEvent) :
    (s.broadcast b e rest).Flags := by
  have hSub : (s.broadcast b e rest).sub = s.sub.enqueue e := rfl
  -- an overflow only adds to what is pending, and a pending overflow freezes the queue
  have hPending : s.sub.recoveryPending = true → (s.sub.enqueue e).recoveryPending = true ∧ (s.sub.enqueue e).ch = s.sub.ch := by
    intro hTrue
    obtain ⟨-, hEq⟩ | ⟨hFalse, -⟩ := enqueue_cases s.sub e
    · rw [hEq]
      exact ⟨hTrue, rfl⟩
    · exact absurd (hTrue.symm.trans hFalse) (by decide)
  refine ⟨?_, ?_, h.live, h.replay, fun hPc hCatchUp hRecovering => (hPending (h.top hPc hCatchUp hRecovering)).1,
    fun hPc => (hPending (h.draining hPc)).1, fun hPc => ?_⟩
  · rw [hSub]
    obtain ⟨-, hEq⟩ | ⟨-, hEq | hEq⟩ := enqueue_cases s.sub e
    · rw [hEq]
      exact h.token
    · rw [hEq]
      exact h.token
    · rw [hEq]
      exact fun _ => rfl
  · rw [hSub]
    intro hCatchUp
    obtain ⟨-, hEq⟩ | ⟨-, hEq | hEq⟩ := enqueue_cases s.sub e
    · rw [hEq]
      exact h.wake hCatchUp
    · rw [hEq]
      exact h.wake hCatchUp
    · rw [hEq]
      exact fun _ => rfl
  · obtain ⟨hTrue, hCh⟩ := h.beginning hPc
    exact ⟨(hPending hTrue).1, (hPending hTrue).2.trans hCh⟩

theorem Flags.step (h : s.Flags) (hStep : s.step a = some s') : s'.Flags := by
  obtain ⟨e, -, rfl⟩ | ⟨b, e, rest, -, -, rfl⟩ | ⟨-, rfl⟩ | hLoop := step_cases hStep
  · exact { h with }
  · exact h.broadcast b e rest
  · refine ⟨h.token, h.wake, nofun, nofun, ?_, nofun, nofun⟩
    rintro (hPc | hPc) <;> cases hPc
  · exact h.loop hLoop

theorem Invariant.step (h : s.Invariant) (hFlags : s.Flags) (hAllowed : s.Allowed a)
    (hStep : s.step a = some s') : s'.Invariant := by
  obtain ⟨e, rfl, rfl⟩ | ⟨b, e, rest, -, hUnsent, rfl⟩ | ⟨-, rfl⟩ | hLoop := step_cases hStep
  · exact h.write hAllowed
  · exact h.broadcast hUnsent
  · exact h.same (.pc s .stopped) fun _ _ => trivial
  · exact h.loop hFlags hAllowed hLoop

section Start

variable {monitored : Bool} {backends : List Bytes} {after : Option Progress} {capacity : Nat}
  {earlier unsent : Bytes → List StoreChangeEvent}

theorem start_flags : (start monitored backends after capacity earlier unsent).Flags :=
  ⟨nofun, nofun, nofun, nofun, fun h => h.elim nofun nofun, nofun, nofun⟩

theorem start_invariant (h : (start monitored backends after capacity earlier unsent).Ordered) :
    (start monitored backends after capacity earlier unsent).Invariant := by
  have hOrigin : ∀ b t, (after.bind fun p => p b).map Position.clusterTime = some t →
      ∃ p ∈ after, ∃ pos ∈ p b, pos.clusterTime = t := by
    intro b t ht
    obtain ⟨pos, hPos, hTime⟩ := Option.map_eq_some_iff.mp ht
    obtain ⟨p, hp, hpos⟩ := Option.bind_eq_some_iff.mp hPos
    exact ⟨p, hp, pos, hpos, hTime⟩
  refine ⟨h, ⟨nofun, nofun, nofun, nofun, fun b t ht => .inr (hOrigin b t ht), fun b => ?_, .nil, ?_, ?_, ?_⟩,
    ⟨rfl, fun _ _ => rfl, fun _ _ _ => rfl, nofun, nofun⟩,
    fun b => (start monitored backends after capacity earlier unsent).base b, fun _ => [], ⟨fun b => ?_, fun _ _ => rfl⟩, ?_⟩
  · cases after with
    | none => rfl
    | some p => rfl
  · intro i e p hi
    cases hi
  · intro i e p hi
    cases hi
  · intro i e p hi
    cases hi
  · simp [start, Subscriber.new]
  · rintro (rfl : after = none) x - hx
    cases hx

end Start

end Runs

end Subscription

end Syntrix.Puller
