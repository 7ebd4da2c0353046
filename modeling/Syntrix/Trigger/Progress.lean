import Syntrix.Trigger.Evaluator
import Syntrix.Lib.Lists

/-! # Progress of the evaluator

Events pass from the puller through the watcher to the loop in the order of the source. Everything before
the first event on its way has been handled, so the progress of an event that was finished covers all
events up to it.
-/
namespace Syntrix.Trigger

open Lib List Option Nat

variable {cfg : Config}

/-! ## Handled events -/

/-- For every rule that matches the event at a position a task has been accepted; an event without a
document is skipped. -/
def Handled (cfg : Config) (h : History) (i : Nat) : Prop :=
  ∀ e, eventAt cfg h.log i = some e → hasDocument e = true → ∀ k trigger, cfg.triggers[k]? = some trigger → trigger e = true →
    (i, k) ∈ h.accepted

/-- The event at a position was delivered, and it and everything delivered before it has been handled. -/
def Covered (cfg : Config) (h : History) (position : Nat) : Prop :=
  position ∈ h.delivered ∧ ∀ i ∈ h.delivered, i ≤ position → Handled cfg h i

def Blocked (cfg : Config) (h : History) (i : Nat) : Prop := (h.log[i]?).map cfg.receive = some .fail

variable {log : List Change} {i : Nat}

theorem eventAt_append (hi : i < log.length) (c : Change) : eventAt cfg (log ++ [c]) i = eventAt cfg log i := by
  rw [eventAt, eventAt, getElem?_append_left hi]

theorem lt_of_eventAt (h : (eventAt cfg log i).isSome) : i < log.length := by
  by_contra hi
  rw [eventAt, getElem?_eq_none (Nat.le_of_not_lt hi)] at h
  cases h

theorem eventAt_of_receive {e : ChangeEvent} (h : (log[i]?).map cfg.receive = some (.event e)) :
    eventAt cfg log i = some e := by
  obtain ⟨c, hc, he⟩ := map_eq_some_iff.mp h
  rw [eventAt, hc, bind_some, he]

theorem eventAt_of_receive_ne {r : Reception} (h : (log[i]?).map cfg.receive = some r)
    (hr : ∀ e, r ≠ .event e) : eventAt cfg log i = none := by
  obtain ⟨c, hc, rfl⟩ := map_eq_some_iff.mp h
  rw [eventAt, hc, bind_some]
  split
  · rename_i e he
    exact absurd he (hr e)
  · rfl

/-! ## The pipeline -/

/-- The channel holds the events from one position on, and every control stands at its position. -/
inductive Stream : Nat → List Item → Nat → Prop
  | nil (c : Nat) : Stream c [] c
  | event {c cursor : Nat} {rest : List Item} : Stream (c + 1) rest cursor → Stream c (.event c :: rest) cursor
  | control {c cursor : Nat} {rest : List Item} (ready : Bool) : Stream c rest cursor → Stream c (.control ready c :: rest) cursor

variable {channel : List Item} {c cursor : Nat}

theorem Stream.append {channel' : List Item} {cursor' : Nat} (h : Stream c channel cursor) (h' : Stream cursor channel' cursor') :
    Stream c (channel ++ channel') cursor' := by
  induction h with
  | nil c => exact h'
  | event _ ih => exact .event (ih h')
  | control ready _ ih => exact .control ready (ih h')

variable {rest : List Item} {position : Nat}

theorem Stream.event_inv (h : Stream c (.event position :: rest) cursor) : position = c ∧ Stream (c + 1) rest cursor := by
  cases h with
  | event hRest => exact ⟨rfl, hRest⟩

theorem Stream.control_inv {ready : Bool} (h : Stream c (.control ready position :: rest) cursor) :
    position = c ∧ Stream c rest cursor := by
  cases h with
  | control _ hRest => exact ⟨rfl, hRest⟩

theorem Stream.le (h : Stream c channel cursor) : c ≤ cursor := by
  induction h with
  | nil c => exact le_refl c
  | event _ ih => exact (le_succ _).trans ih
  | control _ _ ih => exact ih

def Process.behind (p : Process) : Nat :=
  match p.watcher with
  | .offering i _ => i
  | _ => p.received

/-- The event the loop works on, with its sequence and the rules it is done with. -/
def Process.work (p : Process) : Option (Nat × Nat × Nat) :=
  match p.loop with
  | .selecting => none
  | .evaluating i q k => some (i, q, k)
  | .publishing i q k => some (i, q, k)

/-- The rules the loop is done with once the task it publishes is accepted. -/
def Process.rules (p : Process) : Nat :=
  match p.loop with
  | .selecting => 0
  | .evaluating _ _ k => k
  | .publishing _ _ k => k + 1

def Process.front (p : Process) : Nat := p.work.elim p.behind Prod.fst

structure Working (cfg : Config) (h : History) (p : Process) (i q k : Nat) : Prop where
  delivered : i ∈ h.delivered
  before : i < p.behind
  nothingBetween : ∀ j, i < j → j < p.behind → eventAt cfg h.log j = none
  sequence : p.acknowledged < q ∧ q ≤ p.delivered
  first : ∀ w q', p.watcher = .offering w q' → q < q'
  done : ∃ e, eventAt cfg h.log i = some e ∧
    ∀ k' < k, ∀ trigger, cfg.triggers[k']? = some trigger → trigger e = true → (i, k') ∈ h.accepted

structure Pipeline (cfg : Config) (h : History) (p : Process) : Prop where
  began : h.first ≤ p.received
  stream : Stream p.received p.channel p.cursor
  bound : p.cursor ≤ h.log.length
  acknowledged : p.acknowledged ≤ p.delivered
  offering : ∀ i q, p.watcher = .offering i q → i ∈ h.delivered ∧ p.received = i + 1 ∧ p.acknowledged < q ∧ q = p.delivered
  waiting : ∀ b, p.watcher = .waiting b → b = p.received
  working : ∀ i q k, p.work = some (i, q, k) → Working cfg h p i q k
  rules : p.rules ≤ cfg.triggers.length
  handled : ∀ i ∈ h.delivered, i < p.front → Handled cfg h i
  complete : ∀ j, h.first ≤ j → j < p.received → (eventAt cfg h.log j).isSome → j ∈ h.delivered
  unblocked : p.watcher ≠ .failed → ∀ j, h.first ≤ j → j < p.received → ¬ Blocked cfg h j
  latest : ∀ position ∈ p.latestProgress, Covered cfg h position
  saving : ∀ position ∈ p.saving, Covered cfg h position

section Pipeline

variable {h : History} {p : Process}

theorem behind_receiving (h : p.watcher = .receiving) : p.behind = p.received := by rw [Process.behind, h]

theorem Pipeline.behind_le (hp : Pipeline cfg h p) : p.behind ≤ p.received := by
  unfold Process.behind
  split
  · rename_i w q hw
    rw [(hp.offering w q hw).2.1]
    exact le_succ w
  · exact le_rfl

theorem Pipeline.front_le (hp : Pipeline cfg h p) : p.front ≤ p.behind := by
  unfold Process.front
  cases hWork : p.work with
  | none => exact le_rfl
  | some x => exact (hp.working x.1 x.2.1 x.2.2 hWork).before.le

end Pipeline

structure Delivered (cfg : Config) (h : History) : Prop where
  began : ∀ i ∈ h.delivered, h.first ≤ i
  event : ∀ i ∈ h.delivered, (eventAt cfg h.log i).isSome
  complete : ∀ i ∈ h.delivered, ∀ j, h.first ≤ j → j ≤ i → (eventAt cfg h.log j).isSome → j ∈ h.delivered
  unblocked : ∀ i ∈ h.delivered, ∀ j, h.first ≤ j → j ≤ i → ¬ Blocked cfg h j

/-- A Ready control was observed after everything before it was delivered and handled. -/
structure Observed (cfg : Config) (h : History) (position : Nat) : Prop where
  bound : position ≤ h.log.length
  complete : ∀ j, h.first ≤ j → j < position → (eventAt cfg h.log j).isSome → j ∈ h.delivered
  handled : ∀ i ∈ h.delivered, i < position → Handled cfg h i

/-- While events were delivered and no token was stored, the evaluator runs and is not asked to stop. -/
def Attended (s : State) : Prop :=
  s.token = none → s.delivered ≠ [] → ∃ p ∈ s.process, p.cancelled = false

structure Sound (cfg : Config) (s : State) : Prop where
  delivered : Delivered cfg s.toHistory
  token : ∀ position ∈ s.token, Covered cfg s.toHistory position
  inflight : ∀ position ∈ s.inflight, Covered cfg s.toHistory position
  ready : ∀ position ∈ s.ready, Observed cfg s.toHistory position
  pipeline : ∀ p ∈ s.process, Pipeline cfg s.toHistory p
  attended : Attended s
  current : s.token = none → ∀ p ∈ s.process, ∀ i ∈ s.delivered, i < p.received

/-! ## How the history grows -/

section Growth

variable {h h' : History}

structure Grows (h h' : History) : Prop where
  first : h'.first = h.first
  log : ∀ i, i < h.log.length → h'.log[i]? = h.log[i]?
  length : h.log.length ≤ h'.log.length
  delivered : h'.delivered = h.delivered
  accepted : ∀ x ∈ h.accepted, x ∈ h'.accepted

variable {i : Nat}

variable (hg : Grows h h')

include hg

theorem Grows.eventAt_eq (hi : i < h.log.length) : eventAt cfg h'.log i = eventAt cfg h.log i := by
  rw [eventAt, eventAt, hg.log i hi]

theorem Grows.blocked_iff (hi : i < h.log.length) : Blocked cfg h' i ↔ Blocked cfg h i := by
  rw [Blocked, Blocked, hg.log i hi]

theorem Grows.handled (hi : i < h.log.length) (hHandled : Handled cfg h i) : Handled cfg h' i := by
  intro e he hDocument k trigger hTrigger hMatch
  rw [hg.eventAt_eq hi] at he
  exact hg.accepted _ (hHandled e he hDocument k trigger hTrigger hMatch)

omit hg in
theorem Delivered.lt (hd : Delivered cfg h) (hi : i ∈ h.delivered) : i < h.log.length := lt_of_eventAt (hd.event i hi)

variable {position : Nat}

theorem Grows.covered (hd : Delivered cfg h) (hCovered : Covered cfg h position) : Covered cfg h' position := by
  refine ⟨hg.delivered ▸ hCovered.1, fun i hi hle => ?_⟩
  rw [hg.delivered] at hi
  exact hg.handled (hd.lt hi) (hCovered.2 i hi hle)

theorem Grows.deliveries (hd : Delivered cfg h) : Delivered cfg h' := by
  refine ⟨fun i hi => ?_, fun i hi => ?_, fun i hi j hj hji he => ?_, fun i hi j hj hji => ?_⟩ <;> rw [hg.delivered] at hi
  · rw [hg.first]
    exact hd.began i hi
  · rw [hg.eventAt_eq (hd.lt hi)]
    exact hd.event i hi
  · rw [hg.first] at hj
    rw [hg.eventAt_eq (hji.trans_lt (hd.lt hi))] at he
    rw [hg.delivered]
    exact hd.complete i hi j hj hji he
  · rw [hg.first] at hj
    rw [hg.blocked_iff (hji.trans_lt (hd.lt hi))]
    exact hd.unblocked i hi j hj hji

theorem Grows.observed (hd : Delivered cfg h) (ho : Observed cfg h position) : Observed cfg h' position := by
  refine ⟨ho.bound.trans hg.length, fun j hj hlt he => ?_, fun i hi hlt => ?_⟩
  · rw [hg.first] at hj
    rw [hg.eventAt_eq (hlt.trans_le ho.bound)] at he
    rw [hg.delivered]
    exact ho.complete j hj hlt he
  · rw [hg.delivered] at hi
    exact hg.handled (hd.lt hi) (ho.handled i hi hlt)

theorem Grows.pipeline (hd : Delivered cfg h) {p : Process} (hp : Pipeline cfg h p) : Pipeline cfg h' p := by
  have hReceived : p.received ≤ h.log.length := hp.stream.le.trans hp.bound
  refine ⟨?_, hp.stream, hp.bound.trans hg.length, hp.acknowledged, fun i q hw => ?_, hp.waiting, fun i q k hWork => ?_, hp.rules,
    fun i hi hlt => ?_, fun j hj hlt he => ?_, fun hw j hj hlt => ?_, fun position hl => ?_, fun position hs => ?_⟩
  · rw [hg.first]
    exact hp.began
  · rw [hg.delivered]
    exact hp.offering i q hw
  · have hWorking := hp.working i q k hWork
    refine ⟨hg.delivered ▸ hWorking.delivered, hWorking.before, fun j hij hjb => ?_, hWorking.sequence, hWorking.first, ?_⟩
    · rw [hg.eventAt_eq (hjb.trans_le (hp.behind_le.trans hReceived))]
      exact hWorking.nothingBetween j hij hjb
    · obtain ⟨e, he, hDone⟩ := hWorking.done
      refine ⟨e, (hg.eventAt_eq (hd.lt hWorking.delivered)).trans he, fun k' hk' trigger hTrigger hMatch => ?_⟩
      exact hg.accepted _ (hDone k' hk' trigger hTrigger hMatch)
  · rw [hg.delivered] at hi
    exact hg.handled (hd.lt hi) (hp.handled i hi hlt)
  · rw [hg.first] at hj
    rw [hg.eventAt_eq (hlt.trans_le hReceived)] at he
    rw [hg.delivered]
    exact hp.complete j hj hlt he
  · rw [hg.first] at hj
    rw [hg.blocked_iff (hlt.trans_le hReceived)]
    exact hp.unblocked hw j hj hlt
  · exact hg.covered hd (hp.latest position hl)
  · exact hg.covered hd (hp.saving position hs)

omit hg

theorem Sound.grow {s : State} (hs : Sound cfg s) (hg : Grows s.toHistory h') : Sound cfg { s with toHistory := h' } where
  delivered := hg.deliveries hs.delivered
  token position hp := hg.covered hs.delivered (hs.token position hp)
  inflight position hp := hg.covered hs.delivered (hs.inflight position hp)
  ready position hp := hg.observed hs.delivered (hs.ready position hp)
  pipeline p hp := hg.pipeline hs.delivered (hs.pipeline p hp)
  attended ht hd := hs.attended ht (fun h => hd (hg.delivered.trans h))
  current ht p hp i hi := hs.current ht p hp i (hg.delivered ▸ hi)

theorem Grows.append (h : History) (c : Change) : Grows h { h with log := h.log ++ [c] } where
  first := rfl
  log _ hi := getElem?_append_left hi
  length := by rw [length_append]; exact le_add_right _ _
  delivered := rfl
  accepted _ hx := hx

theorem Grows.accept (h : History) (x : Nat × Nat) : Grows h { h with accepted := h.accepted ++ [x] } where
  first := rfl
  log _ _ := rfl
  length := le_rfl
  delivered := rfl
  accepted _ hx := mem_append_left _ hx

end Growth

/-! ## The steps -/

section Steps

variable {s s' : State} {p p' : Process}

theorem Sound.move (hs : Sound cfg s) (hp : s.process = some p) (hPipeline : Pipeline cfg s.toHistory p')
    (hCancelled : p'.cancelled = p.cancelled) (hReceived : p.received ≤ p'.received) :
    Sound cfg { s with process := some p' } where
  delivered := hs.delivered
  token := hs.token
  inflight := hs.inflight
  ready := hs.ready
  pipeline := by
    rintro _ ⟨⟩
    exact hPipeline
  attended ht hd := by
    obtain ⟨q, hq, hRuns⟩ := hs.attended ht hd
    cases hp.symm.trans hq
    exact ⟨p', rfl, hCancelled.trans hRuns⟩
  current := by
    rintro ht _ ⟨⟩ i hi
    exact (hs.current ht p hp i hi).trans_le hReceived

/-- A subscription that has just begun, at a position before which everything is handled. -/
theorem Pipeline.begin {h : History} (hBegan : h.first ≤ i) (hBound : i ≤ h.log.length)
    (hHandled : ∀ j ∈ h.delivered, j < i → Handled cfg h j)
    (hBefore : ∀ j, h.first ≤ j → j < i → ((eventAt cfg h.log j).isSome → j ∈ h.delivered) ∧ ¬ Blocked cfg h j) :
    Pipeline cfg h (.new i) where
  began := hBegan
  stream := .nil _
  bound := hBound
  acknowledged := le_rfl
  offering := nofun
  waiting := nofun
  working := nofun
  rules := zero_le _
  handled := hHandled
  complete j hj hlt := (hBefore j hj hlt).1
  unblocked _ j hj hlt := (hBefore j hj hlt).2
  latest := nofun
  saving := nofun

theorem Sound.restart (hs : Sound cfg s) (hStep : startStep cfg s = some s') : Sound cfg s' := by
  unfold startStep at hStep
  split at hStep
  · rename_i position hNone hToken
    cases hStep
    obtain ⟨hPosition, hHandled⟩ := hs.token position hToken
    have hBegan := hs.delivered.began position hPosition
    refine { hs with pipeline := ?_, attended := ?_, current := fun ht => by cases hToken.symm.trans ht }
    · rintro _ ⟨⟩
      refine .begin (hBegan.trans (Nat.le_succ _)) (hs.delivered.lt hPosition) (fun i hi hlt => hHandled i hi (Nat.lt_succ_iff.mp hlt)) fun j hj hlt => ?_
      have hle := Nat.lt_succ_iff.mp hlt
      exact ⟨hs.delivered.complete position hPosition j hj hle, hs.delivered.unblocked position hPosition j hj hle⟩
    · intro ht _
      cases hToken.symm.trans ht
  · rename_i hNone hToken
    obtain ⟨-, ⟨⟩⟩ := ite_none_right_eq_some.mp hStep
    -- nothing has been delivered, so no progress can have been stored
    have hEmpty : s.delivered = [] := by
      by_contra hd
      obtain ⟨p, hp, -⟩ := hs.attended hToken hd
      rw [hNone] at hp
      exact (not_mem_none _ hp).elim
    have hNothing : ∀ {i : Nat}, i ∉ s.delivered := fun hi => by
      rw [hEmpty] at hi
      cases hi
    exact {
      delivered := ⟨fun i hi => (hNothing hi).elim, fun i hi => (hNothing hi).elim, fun i hi => (hNothing hi).elim,
        fun i hi => (hNothing hi).elim⟩
      token := fun position hp => (hNothing (hs.token position hp).1).elim
      inflight := fun position hp => (hNothing (hs.inflight position hp).1).elim
      ready := fun position hp => ⟨(hs.ready position hp).bound,
        fun j hj hlt _ => absurd (hlt.trans_le (hs.ready position hp).bound) (not_lt.mpr hj), fun i hi => (hNothing hi).elim⟩
      pipeline := by
        rintro _ ⟨⟩
        exact .begin le_rfl le_rfl (fun i hi => (hNothing hi).elim) fun j hj hlt => absurd hlt (not_lt.mpr hj)
      attended := fun _ hd => absurd hEmpty hd
      current := fun _ _ _ i hi => (hNothing hi).elim }
  · cases hStep

variable {h : History}

theorem Working.congr {q k : Nat} (hWorking : Working cfg h p i q k) (hWatcher : p'.watcher = p.watcher)
    (hReceived : p'.received = p.received) (hDelivered : p'.delivered = p.delivered)
    (hAcknowledged : p'.acknowledged = p.acknowledged) : Working cfg h p' i q k := by
  have hBehind : p'.behind = p.behind := by rw [Process.behind, Process.behind, hWatcher, hReceived]
  obtain ⟨hi, hBefore, hBetween, hSequence, hFirst, hDone⟩ := hWorking
  rw [← hBehind] at hBefore hBetween
  rw [← hAcknowledged, ← hDelivered] at hSequence
  rw [← hWatcher] at hFirst
  exact ⟨hi, hBefore, hBetween, hSequence, hFirst, hDone⟩

theorem Pipeline.feed (hPipe : Pipeline cfg h p) (hStream : Stream p.received channel cursor) (hBound : cursor ≤ h.log.length) :
    Pipeline cfg h { p with channel := channel, cursor := cursor } :=
  { hPipe with
    stream := hStream
    bound := hBound
    working := fun i q k hWork => (hPipe.working i q k hWork).congr rfl rfl rfl rfl }

theorem Sound.push (hs : Sound cfg s) (hp : s.process = some p) (hStep : pushStep s p = some s') : Sound cfg s' := by
  obtain ⟨hCursor, ⟨⟩⟩ := ite_none_right_eq_some.mp hStep
  have hPipe := hs.pipeline p hp
  exact hs.move hp (hPipe.feed (hPipe.stream.append (.event (.nil _))) hCursor) rfl (le_rfl)

theorem Sound.control (hs : Sound cfg s) (hp : s.process = some p) (ready : Bool) :
    Sound cfg { s with process := some { p with channel := p.channel ++ [.control ready p.cursor] } } := by
  have hPipe := hs.pipeline p hp
  exact hs.move hp (hPipe.feed (hPipe.stream.append (.control ready (.nil _))) hPipe.bound) rfl (le_rfl)

variable {rest : List Item}

theorem Pipeline.pass {w : Watcher} (hPipe : Pipeline cfg h p) (hw : p.watcher = .receiving)
    (hChannel : Stream (p.received + 1) rest p.cursor) (hNone : eventAt cfg h.log p.received = none)
    (hDelivered : Delivered cfg h) (hNew : w = .receiving ∧ ¬ Blocked cfg h p.received ∨ w = .failed) :
    Pipeline cfg h { p with channel := rest, received := p.received + 1, watcher := w } := by
  have hOld : p.behind = p.received := behind_receiving hw
  have hBehind : ({ p with channel := rest, received := p.received + 1, watcher := w } : Process).behind = p.received + 1 := by
    rcases hNew with ⟨rfl, -⟩ | rfl <;> rfl
  have hOther : ∀ i ∈ h.delivered, i < p.received + 1 → i < p.received := by
    intro i hi hlt
    refine lt_of_le_of_ne (Nat.lt_succ_iff.mp hlt) ?_
    rintro rfl
    have hEvent := hDelivered.event _ hi
    rw [hNone] at hEvent
    cases hEvent
  refine { hPipe with
    began := hPipe.began.trans (le_succ _), stream := hChannel, offering := ?_, waiting := ?_, working := ?_, handled := ?_,
    complete := ?_, unblocked := ?_ }
  · rcases hNew with ⟨rfl, -⟩ | rfl <;> exact nofun
  · rcases hNew with ⟨rfl, -⟩ | rfl <;> exact nofun
  · intro i q k hWork
    have hWorking := hPipe.working i q k hWork
    refine ⟨hWorking.delivered, ?_, fun j hij hj => ?_, hWorking.sequence, ?_, hWorking.done⟩
    · rw [hBehind]
      exact (hOld ▸ hWorking.before).trans (lt_succ_self _)
    · rw [hBehind] at hj
      rcases Nat.lt_succ_iff_lt_or_eq.mp hj with hlt | rfl
      · exact hWorking.nothingBetween j hij (hOld ▸ hlt)
      · exact hNone
    · rcases hNew with ⟨rfl, -⟩ | rfl <;> exact nofun
  · intro i hi hlt
    refine hPipe.handled i hi ?_
    unfold Process.front at hlt ⊢
    cases hWork : p.work with
    | none =>
      rw [show Process.work { p with channel := rest, received := p.received + 1, watcher := w } = p.work from rfl, hWork,
        elim_none, hBehind] at hlt
      rw [elim_none, hOld]
      exact hOther i hi hlt
    | some x =>
      rw [show Process.work { p with channel := rest, received := p.received + 1, watcher := w } = p.work from rfl, hWork] at hlt
      exact hlt
  · intro j hj hlt he
    rcases Nat.lt_succ_iff_lt_or_eq.mp hlt with hBefore | rfl
    · exact hPipe.complete j hj hBefore he
    · rw [hNone] at he
      cases he
  · intro hWatcher j hj hlt
    rcases Nat.lt_succ_iff_lt_or_eq.mp hlt with hBefore | rfl
    · exact hPipe.unblocked (by rw [hw]; nofun) j hj hBefore
    rcases hNew with ⟨-, hUnblocked⟩ | rfl
    · exact hUnblocked
    · exact absurd rfl hWatcher

variable {position : Nat}

variable {e : ChangeEvent}

/-- An event is delivered: every position up to a delivered one that held an event was delivered before, so
nothing is delivered behind a progress that was finished. -/
theorem Delivered.deliver (hd : Delivered cfg h) (hEvent : eventAt cfg h.log position = some e) (hBegan : h.first ≤ position)
    (hComplete : ∀ j, h.first ≤ j → j < position → (eventAt cfg h.log j).isSome → j ∈ h.delivered)
    (hUnblocked : ∀ j, h.first ≤ j → j ≤ position → ¬ Blocked cfg h j) :
    Delivered cfg { h with delivered := h.delivered ++ [position] } := by
  refine ⟨forall_mem_push hd.began hBegan, forall_mem_push hd.event (by rw [hEvent]; rfl),
    forall_mem_push (fun i hi j hj hji he => mem_append_left _ (hd.complete i hi j hj hji he)) fun j hj hji he => ?_,
    forall_mem_push hd.unblocked hUnblocked⟩
  rcases hji.lt_or_eq with hlt | rfl
  · exact mem_append_left _ (hComplete j hj hlt he)
  · exact mem_append_right _ mem_cons_self

theorem Covered.deliver {q : Nat} (hd : Delivered cfg h) (hEvent : (eventAt cfg h.log position).isSome)
    (hBegan : h.first ≤ position) (hCovered : Covered cfg h q) :
    Covered cfg { h with delivered := h.delivered ++ [position] } q := by
  refine ⟨mem_append_left _ hCovered.1, fun i hi hiq => ?_⟩
  rcases mem_push.mp hi with hOld | rfl
  · exact hCovered.2 i hOld hiq
  · exact hCovered.2 _ (hd.complete q hCovered.1 _ hBegan hiq hEvent) hiq

theorem Observed.deliver {b : Nat} (hEvent : (eventAt cfg h.log position).isSome) (hBegan : h.first ≤ position)
    (ho : Observed cfg h b) : Observed cfg { h with delivered := h.delivered ++ [position] } b := by
  refine ⟨ho.bound, fun j hj hlt he => mem_append_left _ (ho.complete j hj hlt he), fun i hi hlt => ?_⟩
  rcases mem_push.mp hi with hOld | rfl
  · exact ho.handled i hOld hlt
  · exact ho.handled _ (ho.complete _ hBegan hlt hEvent) hlt

theorem Pipeline.offer (hPipe : Pipeline cfg h p) (hw : p.watcher = .receiving)
    (hChannel : Stream (p.received + 1) rest p.cursor) (hEvent : eventAt cfg h.log p.received = some e)
    (hDelivered : Delivered cfg h) (hUnblocked : ¬ Blocked cfg h p.received) :
    Pipeline cfg { h with delivered := h.delivered ++ [p.received] } { p with
      channel := rest
      received := p.received + 1
      delivered := p.delivered + 1
      watcher := .offering p.received (p.delivered + 1) } := by
  have hOld : p.behind = p.received := behind_receiving hw
  have hSome : (eventAt cfg h.log p.received).isSome := by rw [hEvent]; rfl
  refine ⟨hPipe.began.trans (le_succ _), hChannel, hPipe.bound, hPipe.acknowledged.trans (le_succ _), ?_, nofun, ?_, hPipe.rules, ?_, ?_, ?_,
    fun q hq => (hPipe.latest q hq).deliver hDelivered hSome hPipe.began,
    fun q hq => (hPipe.saving q hq).deliver hDelivered hSome hPipe.began⟩
  · rintro i q ⟨⟩
    exact ⟨mem_append_right _ mem_cons_self, rfl, Nat.lt_succ_iff.mpr hPipe.acknowledged, rfl⟩
  · intro i q k hWork
    have hWorking := hPipe.working i q k hWork
    refine ⟨mem_append_left _ hWorking.delivered, hOld ▸ hWorking.before, fun j hij hj => ?_,
      ⟨hWorking.sequence.1, hWorking.sequence.2.trans (le_succ _)⟩, ?_, hWorking.done⟩
    · exact hWorking.nothingBetween j hij (hOld.symm ▸ hj)
    · rintro w q' ⟨⟩
      exact Nat.lt_succ_iff.mpr hWorking.sequence.2
  · intro i hi hlt
    have hFront : i < p.front := by
      unfold Process.front at hlt ⊢
      rw [hOld]
      exact hlt
    rcases mem_push.mp hi with hi | rfl
    · exact hPipe.handled i hi hFront
    · exact absurd (hFront.trans_le (hPipe.front_le.trans hOld.le)) (lt_irrefl _)
  · intro j hj hlt he
    rcases Nat.lt_succ_iff_lt_or_eq.mp hlt with hBefore | rfl
    · exact mem_append_left _ (hPipe.complete j hj hBefore he)
    · exact mem_append_right _ mem_cons_self
  · intro _ j hj hlt
    rcases Nat.lt_succ_iff_lt_or_eq.mp hlt with hBefore | rfl
    · exact hPipe.unblocked (by rw [hw]; nofun) j hj hBefore
    · exact hUnblocked

theorem Pipeline.takeControl {ready : Bool} (hPipe : Pipeline cfg h p)
    (hw : p.watcher = .receiving) (hChannel : p.channel = .control ready position :: rest) :
    Pipeline cfg h { p with channel := rest, watcher := if ready then .waiting position else .receiving } := by
  have hStream := hPipe.stream
  rw [hChannel] at hStream
  obtain ⟨rfl, hRest⟩ := hStream.control_inv
  have hBehind : p.behind = p.received := behind_receiving hw
  -- either way the watcher offers nothing, as before
  have hNew : ({ p with channel := rest, watcher := if ready then .waiting p.received else .receiving } : Process).behind = p.behind := by
    rw [hBehind]
    cases ready <;> rfl
  refine { hPipe with stream := hRest, offering := ?_, waiting := ?_, working := ?_, handled := ?_, unblocked := ?_ }
  · cases ready <;> exact nofun
  · cases ready with
    | false => exact nofun
    | true =>
      rintro b ⟨⟩
      rfl
  · intro i q k hWork
    have hWorking := hPipe.working i q k hWork
    refine ⟨hWorking.delivered, hNew ▸ hWorking.before, hNew ▸ hWorking.nothingBetween, hWorking.sequence, ?_, hWorking.done⟩
    cases ready <;> exact nofun
  · intro i hi hlt
    refine hPipe.handled i hi ?_
    unfold Process.front at hlt ⊢
    rw [hNew] at hlt
    exact hlt
  · intro _
    exact hPipe.unblocked (by rw [hw]; nofun)

theorem not_blocked_of_receive {r : Reception} (hr : (h.log[i]?).map cfg.receive = some r) (hFail : r ≠ .fail) :
    ¬ Blocked cfg h i := fun hBlocked => hFail (some.inj (hr.symm.trans hBlocked))

variable (hs : Sound cfg s)

include hs

variable (hp : s.process = some p)

include hp

theorem Sound.receive (hStep : receiveStep cfg s p = some s') (hAttended : Attended s') : Sound cfg s' := by
  have hPipe := hs.pipeline p hp
  unfold receiveStep at hStep
  split at hStep
  · rename_i ready position rest hw hChannel
    cases hStep
    exact hs.move hp (hPipe.takeControl hw hChannel) rfl (le_rfl)
  · rename_i position rest hw hChannel
    have hStream := hPipe.stream
    rw [hChannel] at hStream
    obtain ⟨rfl, hRest⟩ := hStream.event_inv
    split at hStep
    · cases hStep
    · rename_i hReceive
      cases hStep
      have hMoved := hPipe.pass hw hRest (eventAt_of_receive_ne hReceive nofun) hs.delivered
        (.inl ⟨rfl, not_blocked_of_receive hReceive nofun⟩)
      rw [← hw] at hMoved
      exact hs.move hp hMoved rfl (le_succ _)
    · rename_i hReceive
      cases hStep
      exact hs.move hp (hPipe.pass hw hRest (eventAt_of_receive_ne hReceive nofun) hs.delivered (.inr rfl)) rfl (le_succ _)
    · rename_i e hReceive
      cases hStep
      have hEvent := eventAt_of_receive hReceive
      have hSome : (eventAt cfg s.log p.received).isSome := by rw [hEvent]; rfl
      have hUnblocked : ¬ Blocked cfg s.toHistory p.received := not_blocked_of_receive hReceive nofun
      exact {
        delivered := hs.delivered.deliver hEvent hPipe.began hPipe.complete fun j hj hle =>
          hle.lt_or_eq.elim (hPipe.unblocked (by rw [hw]; nofun) j hj) (fun h => h ▸ hUnblocked)
        token := fun q hq => (hs.token q hq).deliver hs.delivered hSome hPipe.began
        inflight := fun q hq => (hs.inflight q hq).deliver hs.delivered hSome hPipe.began
        ready := fun b hb => (hs.ready b hb).deliver hSome hPipe.began
        pipeline := by
          rintro _ ⟨⟩
          exact hPipe.offer hw hRest hEvent hs.delivered hUnblocked
        attended := hAttended
        current := by
          rintro ht _ ⟨⟩
          exact forall_mem_push (fun i hi => (hs.current ht p hp i hi).trans (lt_succ_self _)) (lt_succ_self _) }
  · cases hStep

theorem Sound.observe (hStep : observeStep s p = some s') : Sound cfg s' := by
  have hPipe := hs.pipeline p hp
  unfold observeStep at hStep
  split at hStep
  · rename_i position hw
    obtain ⟨hAcknowledged, ⟨⟩⟩ := ite_none_right_eq_some.mp hStep
    cases hPipe.waiting position hw
    have hBehind : p.behind = p.received := by rw [Process.behind, hw]
    -- everything delivered has been acknowledged, so the loop is idle
    have hIdle : p.work = none := by
      cases hWork : p.work with
      | none => rfl
      | some x =>
        have hSequence := (hPipe.working x.1 x.2.1 x.2.2 hWork).sequence
        exact absurd (hSequence.1.trans_le (hSequence.2.trans hAcknowledged)) (lt_irrefl _)
    have hFront : p.front = p.received := by rw [Process.front, hIdle, elim_none, hBehind]
    have hMoved : Pipeline cfg s.toHistory { p with watcher := .receiving } :=
      { hPipe with
        offering := nofun
        waiting := nofun
        working := fun i q k hWork => by cases hIdle.symm.trans hWork
        handled := fun i hi hlt => hPipe.handled i hi (by
          rw [hFront]
          rwa [Process.front, show Process.work { p with watcher := .receiving } = p.work from rfl, hIdle, elim_none] at hlt)
        unblocked := fun _ => hPipe.unblocked (by rw [hw]; nofun) }
    refine { hs.move hp hMoved rfl (le_rfl) with ready := forall_mem_push hs.ready ?_ }
    exact ⟨hPipe.stream.le.trans hPipe.bound, hPipe.complete, fun i hi hlt => hPipe.handled i hi (hFront ▸ hlt)⟩
  · cases hStep

omit hs in
omit hp in
theorem acknowledge_of_lt {q : Nat} (hq : p.acknowledged < q) (hDelivered : q ≤ p.delivered) :
    p.acknowledge q = { p with acknowledged := q } := by rw [Process.acknowledge, if_pos ⟨hq, hDelivered⟩]

theorem Sound.handOff (hStep : handOffStep cfg s p = some s') : Sound cfg s' := by
  have hPipe := hs.pipeline p hp
  unfold handOffStep at hStep
  split at hStep
  · rename_i position q hw hLoop
    obtain ⟨e, he, rfl⟩ := map_eq_some_iff.mp hStep
    obtain ⟨hDelivered, hReceived, hq, rfl⟩ := hPipe.offering position q hw
    have hFront : p.front = position := by rw [Process.front, Process.work, hLoop, elim_none, Process.behind, hw]
    dsimp only
    split
    · refine hs.move hp { hPipe with
        offering := nofun, waiting := nofun, working := ?_, rules := zero_le _,
        handled := fun i hi hlt => hPipe.handled i hi (hFront ▸ hlt),
        unblocked := fun _ => hPipe.unblocked (by rw [hw]; nofun) } rfl (le_rfl)
      rintro i q k ⟨⟩
      refine ⟨hDelivered, hReceived ▸ lt_succ_self _, fun j hij hj => ?_, ⟨hq, le_rfl⟩, nofun, e, he, nofun⟩
      have hj' : j < position + 1 := hReceived ▸ hj
      exact absurd hj' (not_lt.mpr hij)
    · rename_i hDocument
      rw [acknowledge_of_lt (by exact hq) (le_rfl)]
      refine hs.move hp { hPipe with
        acknowledged := le_rfl, offering := nofun, waiting := nofun, working := ?_, handled := ?_,
        unblocked := fun _ => hPipe.unblocked (by rw [hw]; nofun) } rfl (le_rfl)
      · intro i q k hWork
        rw [Process.work, hLoop] at hWork
        cases hWork
      · intro i hi hlt
        rw [Process.front, Process.work, hLoop, elim_none, Process.behind, hReceived] at hlt
        rcases Nat.lt_succ_iff_lt_or_eq.mp hlt with hBefore | rfl
        · exact hPipe.handled i hi (hFront ▸ hBefore)
        intro e' he' hDocument'
        cases he.symm.trans he'
        exact absurd hDocument' hDocument
  · cases hStep

omit hs in
omit hp in
theorem Pipeline.proceed {i q k k' : Nat} {loop : Loop} (hPipe : Pipeline cfg h p) (hWork : p.work = some (i, q, k))
    (hNew : ({ p with loop := loop } : Process).work = some (i, q, k'))
    (hRules : ({ p with loop := loop } : Process).rules ≤ cfg.triggers.length)
    (hDone : ∀ e, eventAt cfg h.log i = some e → ∀ j < k', ¬ j < k → ∀ trigger, cfg.triggers[j]? = some trigger → trigger e = true →
      (i, j) ∈ h.accepted) :
    Pipeline cfg h { p with loop := loop } := by
  refine { hPipe with working := ?_, rules := hRules, handled := ?_ }
  · intro i' q' j hj
    cases hNew.symm.trans hj
    obtain ⟨hi, hBefore, hBetween, hSequence, hFirst, e, he, hOld⟩ := hPipe.working i q k hWork
    refine ⟨hi, hBefore, hBetween, hSequence, hFirst, e, he, fun j' hj' => ?_⟩
    by_cases hk : j' < k
    · exact hOld j' hk
    · exact hDone e he j' hj' hk
  · intro i' hi' hlt
    rw [Process.front, hNew] at hlt
    exact hPipe.handled i' hi' (by rw [Process.front, hWork]; exact hlt)

variable {succeeds : Bool}

theorem Sound.evaluate (hStep : evaluateStep cfg s p succeeds = some s') : Sound cfg s' := by
  have hPipe := hs.pipeline p hp
  unfold evaluateStep at hStep
  split at hStep
  · rename_i i q k hLoop
    have hWork : p.work = some (i, q, k) := by rw [Process.work, hLoop]
    split at hStep
    · rename_i trigger e hTrigger he
      have hk : k < cfg.triggers.length := (List.getElem?_eq_some_iff.mp hTrigger).1
      split at hStep
      · cases hStep
        exact hs
      split at hStep
      · cases hStep
        exact hs.move hp (hPipe.proceed hWork rfl hk fun _ _ j hj hk => absurd hj hk) rfl (le_rfl)
      rename_i hMatch
      cases hStep
      refine hs.move hp (hPipe.proceed hWork rfl hk fun e' he' j hj hk trigger' hTrigger' hMatch' => ?_) rfl (le_rfl)
      cases Nat.le_antisymm (Nat.lt_succ_iff.mp hj) (Nat.le_of_not_lt hk)
      cases he.symm.trans he'
      cases hTrigger.symm.trans hTrigger'
      exact absurd hMatch' hMatch
    · cases hStep
  · cases hStep

theorem Sound.publish (hStep : publishStep s p succeeds = some s') : Sound cfg s' := by
  unfold publishStep at hStep
  split at hStep
  · rename_i i q k hLoop
    have hWork : p.work = some (i, q, k) := by rw [Process.work, hLoop]
    split at hStep
    · cases hStep
      exact hs
    cases hStep
    have hAccepted := hs.grow (.accept s.toHistory (i, k))
    have hRules : p.rules ≤ cfg.triggers.length := (hs.pipeline p hp).rules
    rw [Process.rules, hLoop] at hRules
    refine hAccepted.move hp ((hAccepted.pipeline p hp).proceed hWork rfl hRules fun e he j hj hk _ _ _ => ?_) rfl (le_rfl)
    cases Nat.le_antisymm (Nat.lt_succ_iff.mp hj) (Nat.le_of_not_lt hk)
    exact mem_append_right _ mem_cons_self
  · cases hStep

omit hs in
omit hp in
theorem Working.handled {i q : Nat} (hWorking : Working cfg h p i q cfg.triggers.length) : Handled cfg h i := by
  obtain ⟨e, he, hDone⟩ := hWorking.done
  intro e' he' _ k trigger hTrigger hMatch
  cases he.symm.trans he'
  exact hDone k (List.getElem?_eq_some_iff.mp hTrigger).1 trigger hTrigger hMatch

theorem Sound.finish (hStep : finishStep cfg s p = some s') : Sound cfg s' := by
  have hPipe := hs.pipeline p hp
  unfold finishStep at hStep
  split at hStep
  · rename_i i q k hLoop
    obtain ⟨⟨rfl, -⟩, ⟨⟩⟩ := ite_none_right_eq_some.mp hStep
    have hWork : p.work = some (i, q, cfg.triggers.length) := by rw [Process.work, hLoop]
    have hWorking := hPipe.working i q _ hWork
    have hFront : p.front = i := by rw [Process.front, hWork]; rfl
    have hHandled : ∀ j ∈ s.delivered, j < p.behind → Handled cfg s.toHistory j := by
      intro j hj hlt
      rcases lt_trichotomy j i with hBefore | rfl | hAfter
      · exact hPipe.handled j hj (hFront ▸ hBefore)
      · exact hWorking.handled
      have hEvent := hs.delivered.event j hj
      rw [hWorking.nothingBetween j hAfter hlt] at hEvent
      cases hEvent
    rw [acknowledge_of_lt hWorking.sequence.1 hWorking.sequence.2]
    refine hs.move hp { hPipe with
      acknowledged := hWorking.sequence.2, offering := ?_, working := nofun, rules := zero_le _, handled := hHandled,
      latest := ?_ } rfl (le_rfl)
    · intro w q' hw
      obtain ⟨hw', hReceived, -, rfl⟩ := hPipe.offering w q' hw
      exact ⟨hw', hReceived, hWorking.first w _ hw, rfl⟩
    · rintro position ⟨⟩
      exact ⟨hWorking.delivered, fun j hj hle => hHandled j hj (hle.trans_lt hWorking.before)⟩
  · cases hStep

theorem Sound.save (hStep : saveStep s p = some s') : Sound cfg s' := by
  obtain ⟨-, ⟨⟩⟩ := ite_none_right_eq_some.mp hStep
  have hPipe := hs.pipeline p hp
  exact hs.move hp { hPipe with
    working := fun i q k hWork => (hPipe.working i q k hWork).congr rfl rfl rfl rfl
    saving := hPipe.latest } rfl (le_rfl)

theorem Sound.saved {result : SaveResult} (hStep : savedStep s p result = some s') : Sound cfg s' := by
  obtain ⟨position, hSaving, rfl⟩ := map_eq_some_iff.mp hStep
  have hPipe := hs.pipeline p hp
  have hCovered := hPipe.saving position hSaving
  have hMoved : Sound cfg { s with process := some { p with saving := none } } := hs.move hp { hPipe with
    working := fun i q k hWork => (hPipe.working i q k hWork).congr rfl rfl rfl rfl
    saving := nofun } rfl (le_rfl)
  cases result with
  | lost => exact hMoved
  | late => exact { hMoved with inflight := forall_mem_push hs.inflight hCovered }
  | stored =>
    refine { hMoved with token := ?_, attended := nofun, current := nofun }
    rintro _ ⟨⟩
    exact hCovered

omit hp in
theorem Sound.land (hp : position ∈ s.inflight) :
    Sound cfg { s with token := some position, inflight := s.inflight.erase position } := by
  refine { hs with token := ?_, inflight := fun q hq => hs.inflight q (mem_of_mem_erase hq), attended := nofun, current := nofun }
  rintro _ ⟨⟩
  exact hs.inflight position hp

theorem Sound.cancel (hAttended : Attended { s with process := some { p with cancelled := true } }) :
    Sound cfg { s with process := some { p with cancelled := true } } := by
  have hPipe := hs.pipeline p hp
  refine { hs with pipeline := ?_, attended := hAttended, current := ?_ }
  · rintro _ ⟨⟩
    exact { hPipe with working := fun i q k hWork => (hPipe.working i q k hWork).congr rfl rfl rfl rfl }
  · rintro ht _ ⟨⟩
    exact hs.current ht p hp

theorem Sound.stop (hAttended : Attended { s with process := none, inflight := s.inflight ++ p.saving.toList }) :
    Sound cfg { s with process := none, inflight := s.inflight ++ p.saving.toList } := by
  refine { hs with inflight := fun q hq => ?_, pipeline := nofun, attended := hAttended, current := fun _ => nofun }
  rcases mem_append.mp hq with hOld | hSaving
  · exact hs.inflight q hOld
  · exact (hs.pipeline p hp).saving q (Option.mem_toList.mp hSaving)

omit hp

theorem Sound.next {a : Action} (hStep : step cfg s a = some s') (hAttended : Attended s') : Sound cfg s' := by
  cases a with
  | append c =>
    cases hStep
    exact hs.grow (.append _ c)
  | start => exact hs.restart hStep
  | push => exact bind_step hStep fun _ => hs.push
  | control ready =>
    obtain ⟨p, hp, rfl⟩ := map_eq_some_iff.mp hStep
    exact hs.control hp ready
  | receive => exact bind_step hStep fun _ hp h => hs.receive hp h hAttended
  | observe => exact bind_step hStep fun _ => hs.observe
  | handOff => exact bind_step hStep fun _ => hs.handOff
  | evaluate succeeds => exact bind_step hStep fun _ hp => hs.evaluate hp
  | publish succeeds => exact bind_step hStep fun _ hp => hs.publish hp
  | finish => exact bind_step hStep fun _ => hs.finish
  | save => exact bind_step hStep fun _ => hs.save
  | saved result => exact bind_step hStep fun _ hp => hs.saved hp
  | land position =>
    obtain ⟨hp, ⟨⟩⟩ := ite_none_right_eq_some.mp hStep
    exact hs.land hp
  | cancel =>
    obtain ⟨p, hp, rfl⟩ := map_eq_some_iff.mp hStep
    exact hs.cancel hp hAttended
  | stop =>
    obtain ⟨p, hp, rfl⟩ := map_eq_some_iff.mp hStep
    exact hs.stop hp hAttended

omit hs

theorem sound_start : Sound cfg start where
  delivered := ⟨nofun, nofun, nofun, nofun⟩
  token := nofun
  inflight := nofun
  ready := nofun
  pipeline := nofun
  attended _ h := absurd rfl h
  current _ := nofun

end Steps

end Syntrix.Trigger
