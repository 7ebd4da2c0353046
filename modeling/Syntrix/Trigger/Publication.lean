import Syntrix.Trigger.Progress

/-! # Publication of the delivered events

Once a token is stored a crash loses nothing: the puller sends again whatever comes after the token. Before
that a process that starts again starts from now, and what was delivered to the one before it is lost.
-/
namespace Syntrix.Trigger

open Lib List Option

variable {cfg : Config} {s s' : State} {p p' : Process}

def Keeps (cfg : Config) (s : State) (a : Action) : Prop := ∀ s' ∈ step cfg s a, Attended s'

theorem Sound.runs {actions : List Action} (hs : Sound cfg s) (h : Runs (step cfg) (Keeps cfg) s actions s') : Sound cfg s' :=
  h.invariant hs fun _ _ s' hs hKeeps hStep => hs.next hStep (hKeeps s' hStep)

/-- One state follows another by steps that keep the evaluator attended, the source and the stored token. -/
structure Continues (cfg : Config) (s s' : State) : Prop where
  runs : ∃ actions, Runs (step cfg) (Keeps cfg) s actions s'
  log : s'.log = s.log
  delivered : ∀ i ∈ s.delivered, i ∈ s'.delivered
  token : s'.token = s.token

theorem Continues.refl (s : State) : Continues cfg s s := ⟨⟨[], .nil⟩, rfl, fun _ hi => hi, rfl⟩

theorem Continues.trans {s'' : State} (h : Continues cfg s s') (h' : Continues cfg s' s'') : Continues cfg s s'' := by
  obtain ⟨taken, hRun⟩ := h.runs
  obtain ⟨actions, hRun'⟩ := h'.runs
  exact ⟨⟨taken ++ actions, hRun.trans hRun'⟩, h'.log.trans h.log, fun i hi => h'.delivered i (h.delivered i hi), h'.token.trans h.token⟩

theorem Continues.sound (h : Continues cfg s s') (hs : Sound cfg s) : Sound cfg s' := h.runs.elim fun _ hRun => hs.runs hRun

theorem Continues.single {a : Action} (hStep : step cfg s a = some s') (hAttended : Attended s') (hLog : s'.log = s.log)
    (hDelivered : ∀ i ∈ s.delivered, i ∈ s'.delivered) (hToken : s'.token = s.token) : Continues cfg s s' := by
  refine ⟨⟨[a], Runs.nil.snoc (fun s'' hs'' => ?_) hStep⟩, hLog, hDelivered, hToken⟩
  cases hStep.symm.trans hs''
  exact hAttended

theorem Continues.advance {a : Action} (hStep : step cfg s a = some s') (hp : s'.process = some p) (hCancelled : p.cancelled = false)
    (hLog : s'.log = s.log) (hDelivered : s'.delivered = s.delivered) (hToken : s'.token = s.token) : Continues cfg s s' :=
  .single hStep (fun _ _ => ⟨p, hp, hCancelled⟩) hLog (fun _ hi => hDelivered ▸ hi) hToken

/-! ## Working off an event -/

variable {e : ChangeEvent} {i n q : Nat}

theorem evaluates (hCancelled : p.cancelled = false) :
    ∀ {k : Nat}, k + n = cfg.triggers.length → ∀ {s : State}, eventAt cfg s.log i = some e →
      s.process = some { p with loop := .evaluating i q k } →
      ∃ s', Continues cfg s s' ∧ s'.process = some { p with loop := .evaluating i q cfg.triggers.length } := by
  induction n with
  | zero =>
    intro k hk s _ hp
    exact ⟨s, .refl s, by rw [hp, ← hk, Nat.add_zero]⟩
  | succ n ih =>
    intro k hk s he hp
    have hLt : k < cfg.triggers.length := by omega
    have hTrigger : cfg.triggers[k]? = some cfg.triggers[k] := getElem?_eq_getElem hLt
    have hEvaluate : evaluateStep cfg s { p with loop := .evaluating i q k } true =
        if cfg.triggers[k] e then some { s with process := some { p with loop := .publishing i q k } }
        else some { s with process := some { p with loop := .evaluating i q (k + 1) } } := by
      unfold evaluateStep
      dsimp only
      rw [hTrigger, he]
      rfl
    have hStep : step cfg s (.evaluate true) = evaluateStep cfg s { p with loop := .evaluating i q k } true := by
      rw [step, hp, bind_some]
    by_cases hMatch : cfg.triggers[k] e = true
    · rw [hEvaluate, if_pos hMatch] at hStep
      have hPublish : step cfg { s with process := some { p with loop := .publishing i q k } } (.publish true) =
          some { s with
            accepted := s.accepted ++ [(i, k)]
            process := some { p with loop := .evaluating i q (k + 1) } } := rfl
      obtain ⟨s', hFollows, hEnd⟩ := ih (by omega : k + 1 + n = _) (s := { s with
        accepted := s.accepted ++ [(i, k)], process := some { p with loop := .evaluating i q (k + 1) } }) he rfl
      exact ⟨s', (Continues.advance hStep rfl hCancelled rfl rfl rfl).trans
        ((Continues.advance hPublish rfl hCancelled rfl rfl rfl).trans hFollows), hEnd⟩
    · rw [hEvaluate, if_neg hMatch] at hStep
      obtain ⟨s', hFollows, hEnd⟩ := ih (by omega : k + 1 + n = _) (s := { s with
        process := some { p with loop := .evaluating i q (k + 1) } }) he rfl
      exact ⟨s', (Continues.advance hStep rfl hCancelled rfl rfl rfl).trans hFollows, hEnd⟩

structure SamePlace (p p' : Process) : Prop where
  cursor : p'.cursor = p.cursor
  received : p'.received = p.received
  channel : p'.channel = p.channel
  watcher : p'.watcher = p.watcher
  cancelled : p'.cancelled = p.cancelled

theorem samePlace_acknowledge (p : Process) (q : Nat) : SamePlace p (p.acknowledge q) := by
  unfold Process.acknowledge
  split <;> exact ⟨rfl, rfl, rfl, rfl, rfl⟩

theorem finishes {k : Nat} (he : eventAt cfg s.log i = some e) (hp : s.process = some p) (hLoop : p.loop = .evaluating i q k)
    (hk : k ≤ cfg.triggers.length) (hCancelled : p.cancelled = false) :
    ∃ s' p', Continues cfg s s' ∧ s'.process = some p' ∧ p'.loop = .selecting ∧ SamePlace p p' := by
  obtain ⟨n, hn⟩ := Nat.exists_eq_add_of_le hk
  have hSelf : s.process = some { p with loop := .evaluating i q k } := by rw [hp, ← hLoop]
  obtain ⟨s', hFollows, hEnd⟩ := evaluates hCancelled hn.symm he hSelf
  have hFinish : step cfg s' .finish = some { s' with process := some {
      ({ p with loop := .evaluating i q cfg.triggers.length } : Process).acknowledge q with
      loop := .selecting
      latestProgress := some i
      notified := true } } := by
    rw [step, hEnd, bind_some, finishStep]
    exact if_pos ⟨rfl, hCancelled⟩
  have hPlace := samePlace_acknowledge { p with loop := .evaluating i q cfg.triggers.length } q
  exact ⟨_, _, hFollows.trans (.advance hFinish rfl (hPlace.cancelled.trans hCancelled) rfl rfl rfl), rfl, rfl, { hPlace with }⟩

theorem Sound.settles (hs : Sound cfg s) (hp : s.process = some p) (hCancelled : p.cancelled = false) :
    ∃ s' p', Continues cfg s s' ∧ s'.process = some p' ∧ p'.loop = .selecting ∧ SamePlace p p' := by
  have hPipe := hs.pipeline p hp
  cases hLoop : p.loop with
  | selecting => exact ⟨s, p, .refl s, hp, hLoop, rfl, rfl, rfl, rfl, rfl⟩
  | evaluating i q k =>
    obtain ⟨e, he, -⟩ := (hPipe.working i q k (by rw [Process.work, hLoop])).done
    have hRules := hPipe.rules
    rw [Process.rules, hLoop] at hRules
    exact finishes he hp hLoop hRules hCancelled
  | publishing i q k =>
    obtain ⟨e, he, -⟩ := (hPipe.working i q k (by rw [Process.work, hLoop])).done
    have hRules := hPipe.rules
    rw [Process.rules, hLoop] at hRules
    have hPublish : step cfg s (.publish true) = some { s with
        accepted := s.accepted ++ [(i, k)]
        process := some { p with loop := .evaluating i q (k + 1) } } := by
      rw [step, hp, bind_some, publishStep, hLoop]
      rfl
    obtain ⟨s', p', hFollows, hp', hIdle, hPlace⟩ := finishes (s := { s with
        accepted := s.accepted ++ [(i, k)]
        process := some { p with loop := .evaluating i q (k + 1) } }) he rfl rfl hRules hCancelled
    exact ⟨s', p', (Continues.advance hPublish rfl hCancelled rfl rfl rfl).trans hFollows, hp', hIdle, { hPlace with }⟩

theorem Sound.takes (hs : Sound cfg s) (hp : s.process = some p) (hw : p.watcher = .offering i q)
    (hLoop : p.loop = .selecting) (hCancelled : p.cancelled = false) :
    ∃ s' p', Continues cfg s s' ∧ s'.process = some p' ∧ p'.loop = .selecting ∧ SamePlace { p with watcher := .receiving } p' := by
  obtain ⟨e, he⟩ := isSome_iff_exists.mp (hs.delivered.event i ((hs.pipeline p hp).offering i q hw).1)
  have hStep : step cfg s .handOff = some (if hasDocument e
      then { s with process := some { p with watcher := .receiving, loop := .evaluating i q 0 } }
      else { s with process := some (({ p with watcher := .receiving } : Process).acknowledge q) }) := by
    rw [step, hp, bind_some, handOffStep, hw, hLoop]
    dsimp only
    rw [he]
    rfl
  by_cases hDocument : hasDocument e = true
  · rw [if_pos hDocument] at hStep
    obtain ⟨s', p', hFollows, hp', hIdle, hPlace⟩ := finishes (s := { s with
      process := some { p with watcher := .receiving, loop := .evaluating i q 0 } }) he rfl rfl (Nat.zero_le _) hCancelled
    exact ⟨s', p', (Continues.advance hStep rfl hCancelled rfl rfl rfl).trans hFollows, hp', hIdle, { hPlace with }⟩
  · rw [if_neg hDocument] at hStep
    have hPlace := samePlace_acknowledge { p with watcher := .receiving } q
    refine ⟨_, _, .advance hStep rfl (hPlace.cancelled.trans hCancelled) rfl rfl rfl, rfl, ?_, hPlace⟩
    unfold Process.acknowledge
    split <;> exact hLoop

/-! ## Redelivery -/

/-- Nothing is on its way, and the next change is the one at a position. -/
structure Idle (p : Process) (position : Nat) : Prop where
  cursor : p.cursor = position
  received : p.received = position
  channel : p.channel = []
  watcher : p.watcher = .receiving
  loop : p.loop = .selecting
  cancelled : p.cancelled = false

theorem Sound.passes {j : Nat} (hs : Sound cfg s) (hp : s.process = some p) (hIdle : Idle p j) (hj : j < s.log.length)
    (hUnblocked : ¬ Blocked cfg s.toHistory j) : ∃ s' p', Continues cfg s s' ∧ s'.process = some p' ∧ Idle p' (j + 1) := by
  obtain ⟨rfl, hReceived, hChannel, hw, hLoop, hCancelled⟩ := hIdle
  have hPush : step cfg s .push = some { s with process := some { p with cursor := p.cursor + 1, channel := [.event p.cursor] } } := by
    rw [step, hp, bind_some, pushStep, if_pos hj, hChannel]
    rfl
  have hPushed := Continues.advance hPush rfl hCancelled rfl rfl rfl
  obtain ⟨c, hc⟩ : ∃ c, s.log[p.cursor]? = some c := ⟨_, getElem?_eq_getElem hj⟩
  have hReceive : step cfg { s with process := some { p with cursor := p.cursor + 1, channel := [.event p.cursor] } } .receive =
      match cfg.receive c with
      | .skip => some { s with process := some { p with cursor := p.cursor + 1, channel := [], received := p.cursor + 1 } }
      | .fail => some { s with process := some { p with
          cursor := p.cursor + 1, channel := [], received := p.cursor + 1, watcher := .failed } }
      | .event _ => some { s with
          delivered := s.delivered ++ [p.cursor]
          process := some { p with
            cursor := p.cursor + 1, channel := [], received := p.cursor + 1, delivered := p.delivered + 1,
            watcher := .offering p.cursor (p.delivered + 1) } } := by
    rw [step, bind_some, receiveStep]
    rw [hw]
    dsimp only
    rw [hc, map_some]
    cases cfg.receive c <;> rfl
  cases hKind : cfg.receive c with
  | skip =>
    rw [hKind] at hReceive
    exact ⟨_, _, hPushed.trans (.advance hReceive rfl hCancelled rfl rfl rfl), rfl, rfl, rfl, rfl, hw, hLoop, hCancelled⟩
  | fail =>
    refine absurd ?_ hUnblocked
    rw [Blocked, hc, map_some, hKind]
  | event e =>
    rw [hKind] at hReceive
    have hOffered := hPushed.trans (.single hReceive (fun _ _ => ⟨_, rfl, hCancelled⟩) rfl (fun _ hi => mem_append_left _ hi) rfl)
    obtain ⟨s', p', hFollows, hp', hIdle, hPlace⟩ := (hOffered.sound hs).takes rfl rfl hLoop hCancelled
    exact ⟨s', p', hOffered.trans hFollows, hp', hPlace.cursor, hPlace.received, hPlace.channel, hPlace.watcher, hIdle,
      hPlace.cancelled.trans hCancelled⟩

theorem Sound.drains : ∀ {s : State} {p : Process} {j : Nat}, Sound cfg s → s.process = some p → Idle p j →
    j + n ≤ s.log.length → (∀ j', j ≤ j' → j' < j + n → ¬ Blocked cfg s.toHistory j') →
    ∃ s' p', Continues cfg s s' ∧ s'.process = some p' ∧ Idle p' (j + n) := by
  induction n with
  | zero => exact fun {s p _} _ hp hIdle _ _ => ⟨s, p, .refl s, hp, hIdle⟩
  | succ n ih =>
    intro s p j hs hp hIdle hLength hUnblocked
    obtain ⟨s', p', hPassed, hp', hIdle'⟩ := hs.passes hp hIdle (by omega) (hUnblocked j (le_refl _) (by omega))
    obtain ⟨s'', p'', hRest, hp'', hIdle''⟩ := ih (hPassed.sound hs) hp' hIdle' (by rw [hPassed.log]; omega) (by
      intro j' hj hlt
      rw [Blocked, hPassed.log]
      exact hUnblocked j' (by omega) (by omega))
    exact ⟨s'', p'', hPassed.trans hRest, hp'', (by omega : j + 1 + n = j + (n + 1)) ▸ hIdle''⟩

theorem Sound.redelivers {position : Nat} (hs : Sound cfg s) (hp : s.process = none) (hToken : s.token = some position)
    (hi : i ∈ s.delivered) (hlt : position < i) : ∃ s', Continues cfg s s' ∧ Handled cfg s'.toHistory i := by
  have hStart : step cfg s .start = some { s with process := some (Process.new (position + 1)) } := by
    rw [step, startStep, hp, hToken]
  have hStarted := Continues.advance hStart rfl rfl rfl rfl rfl
  have hBegan := hs.delivered.began position (hs.token position hToken).1
  obtain ⟨n, rfl⟩ := Nat.exists_eq_add_of_lt hlt
  obtain ⟨s', p', hDrained, hp', hIdle⟩ := (hStarted.sound hs).drains (n := n + 1) (j := position + 1) rfl ⟨rfl, rfl, rfl, rfl, rfl, rfl⟩
    (by have := hs.delivered.lt hi; dsimp only; omega)
    (fun j hj hjlt => hs.delivered.unblocked _ hi j (by omega) (by omega))
  have hSound := hDrained.sound (hStarted.sound hs)
  refine ⟨s', hStarted.trans hDrained, (hSound.pipeline p' hp').handled _ (hDrained.delivered _ hi) ?_⟩
  rw [Process.front, Process.work, hIdle.loop, elim_none, behind_receiving hIdle.watcher, hIdle.received]
  omega

theorem Sound.eventually_handled (hs : Sound cfg s) (hi : i ∈ s.delivered) :
    ∃ s', Continues cfg s s' ∧ Handled cfg s'.toHistory i := by
  cases hToken : s.token with
  | some position =>
    rcases Nat.lt_or_ge position i with hlt | hle
    · cases hp : s.process with
      | none => exact hs.redelivers hp hToken hi hlt
      | some p =>
        have hStop : step cfg s .stop = some { s with process := none, inflight := s.inflight ++ p.saving.toList } := by
          rw [step, hp, map_some]
        have hStopped : Continues cfg s { s with process := none, inflight := s.inflight ++ p.saving.toList } :=
          .single hStop (fun h => by cases hToken.symm.trans h) rfl (fun _ hi => hi) rfl
        obtain ⟨s', hFollows, hHandled⟩ := (hStopped.sound hs).redelivers rfl hToken hi hlt
        exact ⟨s', hStopped.trans hFollows, hHandled⟩
    · exact ⟨s, .refl s, (hs.token position hToken).2 i hi hle⟩
  | none =>
    -- the first process still runs, and the event is the one at the loop or the one offered to it
    obtain ⟨p, hp, hCancelled⟩ := hs.attended hToken (ne_nil_of_mem hi)
    obtain ⟨s₁, p₁, hSettled, hp₁, hLoop₁, hPlace₁⟩ := hs.settles hp hCancelled
    have hs₁ := hSettled.sound hs
    have hPipe₁ := hs₁.pipeline p₁ hp₁
    have hi₁ := hSettled.delivered i hi
    by_cases hFront : i < p₁.front
    · exact ⟨s₁, hSettled, hPipe₁.handled i hi₁ hFront⟩
    have hCurrent := hs₁.current (hSettled.token.trans hToken) p₁ hp₁ i hi₁
    rw [Process.front, Process.work, hLoop₁, elim_none] at hFront
    cases hw : p₁.watcher with
    | offering w q =>
      obtain ⟨s₂, p₂, hTaken, hp₂, hLoop₂, hPlace₂⟩ := hs₁.takes hp₁ hw hLoop₁ (hPlace₁.cancelled.trans hCancelled)
      refine ⟨s₂, hSettled.trans hTaken, ((hTaken.sound hs₁).pipeline p₂ hp₂).handled i (hTaken.delivered i hi₁) ?_⟩
      rw [Process.front, Process.work, hLoop₂, elim_none, behind_receiving hPlace₂.watcher, hPlace₂.received]
      exact hCurrent
    | receiving | waiting b | failed => exact absurd hCurrent (by rwa [Process.behind, hw] at hFront)

/-- In every run in which the evaluator neither stops nor is asked to between its first event and the first
token: the stored token is the progress of an event that was delivered, and for this event and every one
delivered before it the tasks of all rules that match were accepted; every event that was delivered can still
be handled; and when a Ready control is observed, every event before it has been handled. -/
theorem progress_never_skips {actions : List Action} (h : Runs (step cfg) (Keeps cfg) start actions s) :
    (∀ position ∈ s.token, position ∈ s.delivered ∧ ∀ i ∈ s.delivered, i ≤ position → Handled cfg s.toHistory i) ∧
    (∀ i ∈ s.delivered, ∃ more s', Runs (step cfg) (Keeps cfg) s more s' ∧ Handled cfg s'.toHistory i) ∧
    ∀ position ∈ s.ready, ∀ i, s.first ≤ i → i < position → Handled cfg s.toHistory i := by
  have hs : Sound cfg s := sound_start.runs h
  refine ⟨hs.token, fun i hi => ?_, fun position hReady i hFirst hlt => ?_⟩
  · obtain ⟨s', hFollows, hHandled⟩ := hs.eventually_handled hi
    obtain ⟨more, hRun⟩ := hFollows.runs
    exact ⟨more, s', hRun, hHandled⟩
  · intro e he
    have hObserved := hs.ready position hReady
    have hi := hObserved.complete i hFirst hlt (by rw [he]; rfl)
    exact hObserved.handled i hi hlt e he

def everyChange : Config where
  startFromNow := true
  checkpointDatabase := "default"
  triggers := [fun _ => true]

def created : Change where
  opType := .insert
  fullDocument := some { database := "default", fullpath := "rooms/a", deleted := false }

instance (s : State) : Decidable (Attended s) := inferInstanceAs (Decidable (_ → _ → _))

instance (cfg : Config) (s : State) (a : Action) : Decidable (Keeps cfg s a) := inferInstanceAs (Decidable (∀ s' ∈ _, Attended s'))

/-- A crash between the events is made up for: the second event is delivered again and published. -/
def crashAfterToken : List Action :=
  [.start, .append created, .append created, .push, .receive, .handOff, .evaluate true, .publish false, .publish true, .finish,
    .save, .saved .stored, .push, .receive, .stop, .start, .push, .control true, .receive, .handOff, .evaluate true, .publish true,
    .finish, .receive, .observe]

theorem progress_never_skips_crash : ∃ s : State,
    Runs (step everyChange) (Keeps everyChange) start crashAfterToken s ∧ s.token = some 0 ∧ s.delivered = [0, 1, 1] ∧ s.ready = [2] ∧
    Handled everyChange s.toHistory 0 ∧ Handled everyChange s.toHistory 1 := by
  obtain ⟨s, hRun, hToken, hDelivered, hReady, hFirst⟩ : ∃ s, Runs (step everyChange) (Keeps everyChange) start crashAfterToken s ∧
      s.token = some 0 ∧ s.delivered = [0, 1, 1] ∧ s.ready = [2] ∧ s.first = 0 := Runs.exists_checked (by decide +kernel)
  obtain ⟨-, -, hObserved⟩ := progress_never_skips hRun
  have hHandled : ∀ i < 2, Handled everyChange s.toHistory i := fun i hi =>
    hObserved 2 (by rw [hReady]; exact List.mem_cons_self) i (by rw [hFirst]; exact Nat.zero_le i) hi
  exact ⟨s, hRun, hToken, hDelivered, hReady, hHandled 0 (by decide), hHandled 1 (by decide)⟩

/-! ## The window before the first token -/

structure Beyond (i : Nat) (p : Process) : Prop where
  cursor : i < p.cursor
  channel : ∀ position, .event position ∈ p.channel → i < position
  offering : ∀ position q, p.watcher = .offering position q → i < position
  work : ∀ position q k, p.work = some (position, q, k) → i < position
  latest : ∀ position ∈ p.latestProgress, i < position
  saving : ∀ position ∈ p.saving, i < position

/-- The event at a position has left the pipeline without its tasks, and every progress lies behind it. -/
structure Lost (cfg : Config) (i : Nat) (e : ChangeEvent) (s : State) : Prop where
  event : eventAt cfg s.log i = some e
  token : ∀ position ∈ s.token, i < position
  inflight : ∀ position ∈ s.inflight, i < position
  process : ∀ p ∈ s.process, Beyond i p
  accepted : ∀ x ∈ s.accepted, i < x.1

section Lost

variable {i : Nat} {e : ChangeEvent}

variable (h : Lost cfg i e s)

include h

theorem Lost.move (hNew : Beyond i p) : Lost cfg i e { s with process := some p } := by
  refine { h with process := ?_ }
  rintro _ ⟨⟩
  exact hNew

omit h in
theorem beyond_new {position : Nat} (h : i < position) : Beyond i (Process.new position) :=
  ⟨h, nofun, nofun, nofun, nofun, nofun⟩

theorem Lost.restart (hStep : startStep cfg s = some s') : Lost cfg i e s' := by
  unfold startStep at hStep
  split at hStep
  · rename_i position _ hToken
    cases hStep
    exact h.move (beyond_new ((h.token position hToken).trans (Nat.lt_succ_self _)))
  · obtain ⟨-, ⟨⟩⟩ := ite_none_right_eq_some.mp hStep
    have hLt : i < s.log.length := lt_of_eventAt (by rw [h.event]; rfl)
    refine { h with process := ?_ }
    rintro _ ⟨⟩
    exact beyond_new hLt
  · cases hStep

omit h in
theorem Beyond.acknowledge (h : Beyond i p) (q : Nat) : Beyond i (p.acknowledge q) := by
  unfold Process.acknowledge
  split
  · exact { h with cursor := h.cursor }
  · exact h

variable (hp : s.process = some p)

include hp

theorem Lost.push (hStep : pushStep s p = some s') : Lost cfg i e s' := by
  obtain ⟨-, ⟨⟩⟩ := ite_none_right_eq_some.mp hStep
  have hBeyond := h.process p hp
  refine h.move { hBeyond with cursor := hBeyond.cursor.trans (Nat.lt_succ_self _), channel := fun position hPosition => ?_ }
  rcases mem_push.mp hPosition with hOld | hNew
  · exact hBeyond.channel position hOld
  · cases hNew
    exact hBeyond.cursor

theorem Lost.receive (hStep : receiveStep cfg s p = some s') : Lost cfg i e s' := by
  have hBeyond := h.process p hp
  unfold receiveStep at hStep
  split at hStep
  · rename_i ready position rest hw hChannel
    cases hStep
    refine h.move { hBeyond with channel := fun q hq => hBeyond.channel q (hChannel ▸ mem_cons_of_mem _ hq), offering := ?_ }
    cases ready <;> exact nofun
  · rename_i position rest hw hChannel
    have hRest : ∀ q, Item.event q ∈ rest → i < q := fun q hq => hBeyond.channel q (hChannel ▸ mem_cons_of_mem _ hq)
    have hPosition : i < position := hBeyond.channel position (hChannel ▸ mem_cons_self)
    split at hStep
    · cases hStep
    · cases hStep
      exact h.move { hBeyond with channel := hRest }
    · cases hStep
      exact h.move { hBeyond with channel := hRest, offering := nofun }
    cases hStep
    refine { h with process := ?_ }
    rintro _ ⟨⟩
    refine { hBeyond with channel := hRest, offering := ?_ }
    rintro _ _ ⟨⟩
    exact hPosition
  · cases hStep

theorem Lost.observe (hStep : observeStep s p = some s') : Lost cfg i e s' := by
  unfold observeStep at hStep
  split at hStep
  · obtain ⟨-, ⟨⟩⟩ := ite_none_right_eq_some.mp hStep
    refine { h with process := ?_ }
    rintro _ ⟨⟩
    exact { h.process p hp with offering := nofun }
  · cases hStep

theorem Lost.handOff (hStep : handOffStep cfg s p = some s') : Lost cfg i e s' := by
  have hBeyond := h.process p hp
  unfold handOffStep at hStep
  split at hStep
  · rename_i position q hw hLoop
    obtain ⟨e', -, rfl⟩ := map_eq_some_iff.mp hStep
    have hTaken : Beyond i { p with watcher := .receiving } := { hBeyond with offering := nofun }
    split
    · refine h.move { hTaken with work := ?_ }
      rintro _ _ _ ⟨⟩
      exact hBeyond.offering position q hw
    · exact h.move (hTaken.acknowledge q)
  · cases hStep

variable {succeeds : Bool}

theorem Lost.evaluate (hStep : evaluateStep cfg s p succeeds = some s') : Lost cfg i e s' := by
  have hBeyond := h.process p hp
  unfold evaluateStep at hStep
  split at hStep
  · rename_i position q k hLoop
    have hPosition : i < position := hBeyond.work position q k (by rw [Process.work, hLoop])
    split at hStep
    · split at hStep
      · cases hStep
        exact h
      split at hStep <;> cases some.inj hStep <;> refine h.move { hBeyond with work := ?_ } <;> rintro _ _ _ ⟨⟩ <;> exact hPosition
    · cases hStep
  · cases hStep

theorem Lost.publish (hStep : publishStep s p succeeds = some s') : Lost cfg i e s' := by
  have hBeyond := h.process p hp
  unfold publishStep at hStep
  split at hStep
  · rename_i position q k hLoop
    have hPosition : i < position := hBeyond.work position q k (by rw [Process.work, hLoop])
    split at hStep
    · cases hStep
      exact h
    cases hStep
    refine { h with process := ?_, accepted := fun x hx => ?_ }
    · rintro _ ⟨⟩
      refine { hBeyond with work := ?_ }
      rintro _ _ _ ⟨⟩
      exact hPosition
    · rcases mem_push.mp hx with hOld | rfl
      · exact h.accepted x hOld
      · exact hPosition
  · cases hStep

theorem Lost.finish (hStep : finishStep cfg s p = some s') : Lost cfg i e s' := by
  have hBeyond := h.process p hp
  unfold finishStep at hStep
  split at hStep
  · rename_i position q k hLoop
    obtain ⟨-, ⟨⟩⟩ := ite_none_right_eq_some.mp hStep
    refine h.move { hBeyond.acknowledge q with work := nofun, latest := ?_ }
    rintro _ ⟨⟩
    exact hBeyond.work position q k (by rw [Process.work, hLoop])
  · cases hStep

omit hp

theorem Lost.next {a : Action} (hStep : step cfg s a = some s') : Lost cfg i e s' := by
  cases a with
  | append c =>
    cases hStep
    exact { h with event := (eventAt_append (lt_of_eventAt (by rw [h.event]; rfl)) c).trans h.event }
  | start => exact h.restart hStep
  | push => exact bind_step hStep fun _ => h.push
  | control ready =>
    obtain ⟨p, hp, rfl⟩ := map_eq_some_iff.mp hStep
    have hBeyond := h.process p hp
    refine h.move { hBeyond with channel := fun position hPosition => ?_ }
    rcases mem_append.mp hPosition with hOld | hNew
    · exact hBeyond.channel position hOld
    · exact absurd (mem_singleton.mp hNew) nofun
  | receive => exact bind_step hStep fun _ => h.receive
  | observe => exact bind_step hStep fun _ => h.observe
  | handOff => exact bind_step hStep fun _ => h.handOff
  | evaluate succeeds => exact bind_step hStep fun _ hp => h.evaluate hp
  | publish succeeds => exact bind_step hStep fun _ hp => h.publish hp
  | finish => exact bind_step hStep fun _ => h.finish
  | save =>
    obtain ⟨p, hp, -, ⟨⟩⟩ := bind_guard hStep
    have hBeyond := h.process p hp
    exact h.move { hBeyond with saving := hBeyond.latest }
  | saved result =>
    obtain ⟨p, hp, hStep⟩ := bind_eq_some_iff.mp hStep
    obtain ⟨position, hSaving, rfl⟩ := map_eq_some_iff.mp hStep
    have hBeyond := h.process p hp
    have hPosition := hBeyond.saving position hSaving
    refine { h with token := fun q hq => ?_, inflight := fun q hq => ?_, process := ?_ }
    · split at hq
      · cases hq
        exact hPosition
      · exact h.token q hq
    · dsimp only at hq
      split at hq
      · rcases mem_push.mp hq with hOld | rfl
        · exact h.inflight q hOld
        · exact hPosition
      · exact h.inflight q hq
    · rintro _ ⟨⟩
      exact { hBeyond with saving := nofun }
  | land position =>
    obtain ⟨hp, ⟨⟩⟩ := ite_none_right_eq_some.mp hStep
    refine { h with token := ?_, inflight := fun q hq => h.inflight q (mem_of_mem_erase hq) }
    rintro _ ⟨⟩
    exact h.inflight position hp
  | cancel =>
    obtain ⟨p, hp, rfl⟩ := map_eq_some_iff.mp hStep
    exact h.move { h.process p hp with cursor := (h.process p hp).cursor }
  | stop =>
    obtain ⟨p, hp, rfl⟩ := map_eq_some_iff.mp hStep
    refine { h with process := nofun, inflight := fun q hq => ?_ }
    rcases mem_append.mp hq with hOld | hSaving
    · exact h.inflight q hOld
    · exact (h.process p hp).saving q (Option.mem_toList.mp hSaving)

end Lost

/-- The evaluator crashes with the first event on its way, and starts again from now. -/
def crashBeforeToken : List Action := [.start, .append created, .push, .receive, .handOff, .stop, .start]

theorem event_lost_before_token : ∃ s : State,
    Runs (step everyChange) (fun _ _ => True) start crashBeforeToken s ∧ 0 ∈ s.delivered ∧
    ∀ more s', Runs (step everyChange) (fun _ _ => True) s more s' → ¬ Handled everyChange s'.toHistory 0 := by
  obtain ⟨s, hStart, hDelivered, hProcess, hLog, hToken, hInflight, hAccepted⟩ : ∃ s,
      Runs (step everyChange) (fun _ _ => True) start crashBeforeToken s ∧ 0 ∈ s.delivered ∧ s.process = some (Process.new 1) ∧
      s.log = [created] ∧ s.token = none ∧ s.inflight = [] ∧ s.accepted = [] := Runs.exists_of_foldlM (by decide +kernel)
  have hLost : Lost everyChange 0 { type := .create, document := created.fullDocument } s := {
    event := by
      rw [hLog]
      decide +kernel
    token := fun q hq => by cases hToken.symm.trans hq
    inflight := fun q hq => (List.not_mem_nil (hInflight ▸ hq)).elim
    process := fun p hp => by
      cases hProcess.symm.trans hp
      exact beyond_new (by decide)
    accepted := fun x hx => (List.not_mem_nil (hAccepted ▸ hx)).elim }
  refine ⟨s, hStart, hDelivered, fun more s' hRun hHandled => ?_⟩
  have hLost' := hRun.invariant hLost fun _ _ _ h _ hStep => h.next hStep
  exact absurd (hLost'.accepted _ (hHandled _ hLost'.event rfl 0 _ rfl rfl)) (lt_irrefl _)

end Syntrix.Trigger
